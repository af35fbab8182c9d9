import Garnet.Proofs.Lowering.Parts
import Garnet.Proofs.Outcome

/-!
# What splats spell out

A list with starred items is spelt out by calls of `to_a` and `+`, and a hash with double stars by calls of
`merge`. This is right under any meaning of trees in which these calls do what they do for arrays and hashes
(`splats_in_order`). A meaning may fail and change a state, so items are evaluated once and in order.
-/

namespace Garnet

namespace Splat

open List

/-! ### Hashes -/

/-- A hash: its keys in the order in which they came, and what belongs to them. -/
@[ext]
structure Dict (V : Type) where
  keys : List V
  value : V → Option V
  mem_keys k : k ∈ keys ↔ (value k).isSome

namespace Dict

variable {V : Type}

def empty : Dict V := ⟨[], fun _ => none, by simp⟩

variable [DecidableEq V]

/-- The hash with an entry. A key that is there keeps its place. -/
def put (m : Dict V) (p : V × V) : Dict V where
  keys := if p.1 ∈ m.keys then m.keys else m.keys ++ [p.1]
  value k := if k = p.1 then some p.2 else m.value k
  mem_keys := by grind [m.mem_keys]

/-- The hash updated by another one, whose entries win. -/
def merge (m n : Dict V) : Dict V where
  keys := m.keys ++ n.keys.filter (· ∉ m.keys)
  value k := (n.value k).or (m.value k)
  mem_keys := by grind [m.mem_keys, n.mem_keys]

lemma merge_put (m n : Dict V) (p : V × V) : m.merge (n.put p) = (m.merge n).put p := by
  refine Dict.ext ?_ (funext fun k => ?_)
  · grind [merge, put]
  · simp only [merge, put]
    split <;> rfl

lemma merge_foldl_put (m n : Dict V) (ps : List (V × V)) :
    m.merge (ps.foldl put n) = ps.foldl put (m.merge n) := by
  induction ps generalizing n with
  | nil => rfl
  | cons p ps ih => rw [foldl_cons, ih, merge_put, foldl_cons]

lemma merge_empty (m : Dict V) : m.merge empty = m := by
  ext k
  all_goals simp [merge, empty]

end Dict

/-! ### Meaning -/

/-- The key and the value of an entry, in this order. -/
def entry {ε σ V : Type} (eval : Tree → EStateM ε σ V) (e : Tree) : EStateM ε σ (V × V) := do
  return (← eval (e.children[0]?.getD .absent), ← eval (e.children[1]?.getD .absent))

/-- A meaning of trees in which arrays are lists, and hashes are dictionaries. -/
structure Eval (ε σ V : Type) [DecidableEq V] where
  eval : Tree → EStateM ε σ V
  call : V → String → List V → EStateM ε σ V
  list : List V → V
  hash : Dict V → V
  /-- What a value is as a list. -/
  elements : V → EStateM ε σ (List V)
  /-- What a value is as a hash. -/
  entries : V → EStateM ε σ (Dict V)
  eval_array span id es : eval (.node .array span id es) = list <$> es.mapM eval
  eval_hash span id es :
    eval (.node .hash span id es) = (fun ps => hash (ps.foldl .put .empty)) <$> es.mapM (entry eval)
  eval_send span id r f i as :
    eval (.node .send span id [r, .name f, .node .args span i as, .absent]) = do
      call (← eval r) f (← as.mapM eval)
  elements_list vs : elements (list vs) = pure vs
  entries_hash m : entries (hash m) = pure m
  call_to_a v : call v "to_a" [] = list <$> elements v
  call_add vs ws : call (list vs) "+" [list ws] = pure (list (vs ++ ws))
  call_merge m v : call (hash m) "merge" [v] = (fun n => hash (m.merge n)) <$> entries v

/-! ### A meaning that keeps a record -/

noncomputable local instance : DecidableEq Tree := Classical.decEq Tree

namespace Record

def list (vs : List Tree) : Tree := .node .array .zero 0 vs

def elements : Tree → List Tree
  | .node .array _ _ vs => vs
  | v => [v]

def pair (e : Tree) : Tree × Tree := (e.children[0]?.getD .absent, e.children[1]?.getD .absent)

def hash (m : Dict Tree) : Tree :=
  .node .hash .zero 0 (m.keys.map fun k => .node .pair .zero 0 [k, (m.value k).getD .absent])

noncomputable def entries (v : Tree) : Dict Tree where
  keys := (v.children.map pair).map Prod.fst
  value k := ((v.children.map pair).find? (·.1 = k)).map Prod.snd
  mem_keys k := by simp

lemma entries_hash (m : Dict Tree) : entries (hash m) = m := by
  have hpairs : (hash m).children.map pair = m.keys.map fun k => (k, (m.value k).getD .absent) := by
    rw [hash, Tree.children, map_map]
    rfl
  refine Dict.ext ?_ (funext fun k => ?_)
  · simp [entries, hpairs, Function.comp_def]
  · have hk := m.mem_keys k
    simp only [entries, hpairs, find?_map, Function.comp_def]
    cases hf : m.keys.find? fun x => decide (x = k) with
    | none =>
      have hno : k ∉ m.keys := fun h => find?_eq_none.mp hf k h (decide_eq_true rfl)
      exact (Option.not_isSome_iff_eq_none.mp fun h => hno (hk.mpr h)).symm
    | some x =>
      have hx : x = k := by simpa using find?_some hf
      obtain ⟨v, hv⟩ := Option.isSome_iff_exists.mp (hk.mp (hx ▸ mem_of_find?_eq_some hf))
      simp [hx, hv]

noncomputable def call : Tree → String → List Tree → EStateM Unit (List String) Tree
  | v, "to_a", [] => return list (elements v)
  | v, "+", [w] => return list (elements v ++ elements w)
  | v, "merge", [w] => return hash ((entries v).merge (entries w))
  | v, _, _ => return v

mutual

/-- The value of a tree. The names that are evaluated are put on record. -/
noncomputable def eval : Tree → EStateM Unit (List String) Tree
  | .name x => do
    modify (· ++ [x])
    return .name x
  | .node .array _ _ es => list <$> evalAll es
  | .node .hash _ _ es => (fun ps => hash (ps.foldl .put .empty)) <$> evalPairs es
  | .node .send _ _ [r, .name f, .node .args _ _ as, .absent] => do call (← eval r) f (← evalAll as)
  | e => return e

noncomputable def evalAll : List Tree → EStateM Unit (List String) (List Tree)
  | [] => return []
  | e :: es => return (← eval e) :: (← evalAll es)

noncomputable def evalPairs : List Tree → EStateM Unit (List String) (List (Tree × Tree))
  | [] => return []
  | .node _ _ _ (k :: v :: _) :: es => return (← eval k, ← eval v) :: (← evalPairs es)
  | .node _ _ _ [k] :: es => return (← eval k, .absent) :: (← evalPairs es)
  | _ :: es => return (.absent, .absent) :: (← evalPairs es)

end

lemma evalAll_eq (es : List Tree) : evalAll es = es.mapM eval := by
  induction es with
  | nil => rfl
  | cons e es ih => rw [evalAll, mapM_cons, ih]

lemma evalPairs_eq (es : List Tree) : evalPairs es = es.mapM (entry eval) := by
  induction es with
  | nil => rfl
  | cons e es ih =>
    rw [mapM_cons, ← ih]
    cases e with
    | node tag span id cs =>
      rcases cs with _ | ⟨k, _ | ⟨v, vs⟩⟩ <;> simp [evalPairs, entry, Tree.children, eval]
    | _ => simp [evalPairs, entry, Tree.children, eval]

/-- The meaning of trees as trees. -/
noncomputable def meaning : Eval Unit (List String) Tree where
  eval := eval
  call := call
  list := list
  hash := hash
  elements v := return elements v
  entries v := return entries v
  eval_array span id es := by rw [eval, evalAll_eq]
  eval_hash span id es := by rw [eval, evalPairs_eq]
  eval_send span id r f i as := by rw [eval, evalAll_eq]
  elements_list vs := rfl
  entries_hash m := by rw [entries_hash]
  call_to_a v := rfl
  call_add vs ws := rfl
  call_merge m v := by simp [call, entries_hash]

end Record

variable {ε σ V : Type} [DecidableEq V] (I : Eval ε σ V)

namespace Eval

def contents (e : Tree) : EStateM ε σ (List V) := I.eval e >>= I.elements

def spliced : Tree → EStateM ε σ (List V)
  | .node .splat span id es => I.contents ((Node.mk .splat span id es).child 0)
  | e => ([·]) <$> I.eval e

def update (m : Dict V) : Tree → EStateM ε σ (Dict V)
  | .node .doubleSplat span id es => do
    return m.merge (← I.entries (← I.eval ((Node.mk .doubleSplat span id es).child 0)))
  | e => m.put <$> entry I.eval e

/-- The trees are arrays, which hold `vs` one behind the other. -/
def Holds (ps : List Tree) (vs : EStateM ε σ (List V)) : Prop :=
  (∀ e ∈ ps, I.eval e = I.list <$> I.contents e) ∧ flatten <$> ps.mapM I.contents = vs

end Eval

/-- The pass comes to an end, and what it makes satisfies `Q`. -/
def Yields {α : Type} (p : Pass α) (Q : α → Prop) : Prop := ∀ s, ∃ a s', p s = .ok a s' ∧ Q a

namespace Yields

variable {α β : Type} {p : Pass α} {f : α → Pass β} {Q : α → Prop} {R : β → Prop} {a : α}

lemma bind (hp : Yields p Q) (hf : ∀ a, Q a → Yields (f a) R) : Yields (p >>= f) R := by
  intro s
  obtain ⟨a, t, ha, hQ⟩ := hp s
  obtain ⟨b, s', hb, hR⟩ := hf a hQ t
  exact ⟨b, s', bind_eq_ok.mpr ⟨a, t, ha, hb⟩, hR⟩

lemma pure (h : Q a) : Yields (pure a) Q := fun s => ⟨a, s, rfl, h⟩

lemma array (es : List Tree) (span : Span) :
    Yields (Build.node .array span es) fun e => I.eval e = I.list <$> es.mapM I.eval :=
  fun _ => ⟨_, _, rfl, I.eval_array ..⟩

lemma hash (es : List Tree) (span : Span) : Yields (Build.node .hash span es) fun e =>
    I.eval e = (fun ps => I.hash (ps.foldl .put .empty)) <$> es.mapM (entry I.eval) :=
  fun _ => ⟨_, _, rfl, I.eval_hash ..⟩

lemma send (r : Tree) (name : String) (es : List Tree) (span : Span) :
    Yields (Build.send span r name es) fun e =>
      I.eval e = (do I.call (← I.eval r) name (← es.mapM I.eval)) :=
  fun _ => ⟨_, _, rfl, I.eval_send ..⟩

end Yields

section

variable {I} {e acc : Tree} {vs ws : EStateM ε σ (List V)} {ps : List Tree}

lemma contents_eq (h : I.eval e = I.list <$> vs) : I.contents e = vs := by
  simp [Eval.contents, h, I.elements_list]

lemma holds_nil : I.Holds [] (pure []) := ⟨nofun, by simp⟩

lemma holds_cons (he : I.eval e = I.list <$> vs) (hps : I.Holds ps ws) :
    I.Holds (e :: ps) (do return (← vs) ++ (← ws)) := by
  have hvs := contents_eq he
  refine ⟨forall_mem_cons.mpr ⟨hvs ▸ he, hps.1⟩, ?_⟩
  simp [← hps.2, hvs]

lemma yields_sum (hacc : I.eval acc = I.list <$> vs) (span : Span) (hps : I.Holds ps ws) :
    Yields (sum span acc ps) fun e => I.eval e = I.list <$> (do return (← vs) ++ (← ws)) := by
  induction ps generalizing acc vs ws with
  | nil => exact .pure (by simp [hacc, ← hps.2])
  | cons part ps ih =>
    obtain ⟨hp, hr⟩ := forall_mem_cons.mp hps.1
    refine (Yields.send I acc "+" [part] span).bind fun e he => ?_
    have he : I.eval e = I.list <$> (do return (← vs) ++ (← I.contents part)) := by
      simp [he, hacc, hp, I.call_add]
    have h := ih he ⟨hr, rfl⟩
    rw [← hps.2]
    simpa using h

end

lemma yields_flush (run : List Tree) (span : Span) : Yields (flush run span) fun before =>
    ∀ ps ws, I.Holds ps ws → I.Holds (before ++ ps) (do return (← run.mapM I.eval) ++ (← ws)) := by
  unfold flush
  split
  · rename_i hrun
    rw [isEmpty_iff.mp hrun]
    exact .pure fun ps ws hps => by simpa using hps
  · exact (Yields.array I run span).bind fun e he => .pure fun ps ws hps => holds_cons he hps

lemma yields_parts (run items : List Tree) (span : Span) : Yields (parts span run items) fun ps =>
    I.Holds ps (do return (← run.mapM I.eval) ++ (← items.mapM I.spliced).flatten) := by
  fun_induction parts span run items with
  | case1 run =>
    rw [← bind_pure (flush run span)]
    refine (yields_flush I run span).bind fun before hb => .pure ?_
    simpa using hb [] _ holds_nil
  | case2 run s id es items ih =>
    refine (yields_flush I run span).bind fun before hb => ?_
    refine (Yields.send I _ "to_a" [] s).bind fun part hp => ih.bind fun ps hps => .pure ?_
    have hp : I.eval part = I.list <$> I.spliced (.node .splat s id es) := by
      simp [hp, Eval.spliced, Eval.contents, I.call_to_a]
    simpa using hb _ _ (holds_cons hp hps)
  | case3 run item items hpla ih =>
    have hit : I.spliced item = ([·]) <$> I.eval item := by
      unfold Eval.spliced
      split
      · exact (hpla _ _ _ rfl).elim
      · rfl
    simpa [hit] using ih

lemma yields_array (items : List Tree) (span : Span) : Yields (array items span) fun e =>
    I.eval e = I.list <$> (do return (← items.mapM I.spliced).flatten) := by
  refine (yields_parts I [] items span).bind fun ps hps => ?_
  simp only [mapM_nil, pure_bind, nil_append] at hps
  split
  · rename_i part rest
    obtain ⟨hp, hr⟩ := forall_mem_cons.mp hps.1
    split
    · rw [← hps.2]
      simpa using yields_sum hp span ⟨hr, rfl⟩
    · refine (Yields.array I [] span).bind fun start hs => ?_
      have hs : I.eval start = I.list <$> pure [] := by simpa using hs
      simpa using yields_sum hs span hps
  · rw [← hps.2]
    simpa using Yields.array I [] span

variable {m : EStateM ε σ (Dict V)}

lemma yields_mergeRun {acc : Option Tree} (run : List Tree) (span : Span)
    (hacc : acc.elim (m = pure .empty) (I.eval · = I.hash <$> m)) :
    Yields (mergeRun acc run span) fun e => I.eval e = I.hash <$> (do
      let b ← m
      return (← run.mapM (entry I.eval)).foldl .put b) := by
  unfold mergeRun
  split
  · rename_i e
    split
    · rename_i hrun
      rw [isEmpty_iff.mp hrun]
      exact .pure (by simpa using hacc)
    · refine (Yields.hash I run span).bind fun group hg => ?_
      have hm := Yields.send I e "merge" [group] span
      have hacc : I.eval e = I.hash <$> m := hacc
      simpa [hacc, hg, I.call_merge, I.entries_hash, Dict.merge_foldl_put, Dict.merge_empty] using hm
  · rw [show m = pure .empty from hacc]
    simpa using Yields.hash I run span

lemma yields_hash {a : Option Tree} (run items : List Tree) (span : Span)
    (hacc : a.elim (m = pure .empty) (I.eval · = I.hash <$> m)) :
    Yields (hash span a run items) fun e => I.eval e = I.hash <$> (do
      let b ← m
      items.foldlM I.update ((← run.mapM (entry I.eval)).foldl .put b)) := by
  fun_induction hash span a run items generalizing m with
  | case1 acc run => simpa using yields_mergeRun I run span hacc
  | case2 acc run s id es items ih =>
    refine (yields_mergeRun I run span hacc).bind fun base hb => ?_
    refine (Yields.send I base "merge" _ s).bind fun e he => ?_
    have h := ih e (m := do
      let b ← m
      I.update ((← run.mapM (entry I.eval)).foldl .put b) (.node .doubleSplat s id es))
      (show I.eval e = _ by simp [he, hb, Eval.update, I.call_merge])
    simpa using h
  | case3 acc run item items hp ih =>
    have hit b : I.update b item = b.put <$> entry I.eval item := by
      unfold Eval.update
      split
      · exact (hp _ _ _ rfl).elim
      · rfl
    simpa [hit] using ih hacc

/-- A list holds what its items stand for, one behind the other, starred ones spliced in; and a hash is what its
entries make of the empty one from left to right. -/
theorem splats_in_order (items : List Tree) (span : Span) (s : Nat) :
    (∃ e s', array items span s = .ok e s' ∧
      I.eval e = I.list <$> (do return (← items.mapM I.spliced).flatten)) ∧
    ∃ e s', hash span none [] items s = .ok e s' ∧ I.eval e = I.hash <$> items.foldlM I.update .empty := by
  refine ⟨yields_array I items span s, ?_⟩
  simpa using yields_hash I (m := pure .empty) (a := none) [] items span rfl s

/-- Names that are spliced in, and a name that a later entry gives another value. -/
theorem splats_in_order_recorded :
    (∃ e s, array [.name "a", .node .splat .zero 0 [.node .array .zero 0 [.name "b", .name "c"]], .name "d"]
        .zero 0 = .ok e s ∧
      Record.eval e [] = .ok (Record.list [.name "a", .name "b", .name "c", .name "d"]) ["a", "b", "c", "d"]) ∧
    ∃ e s m, hash .zero none [] [.node .pair .zero 0 [.name "a", .name "b"],
        .node .doubleSplat .zero 0 [.node .hash .zero 0 [.node .pair .zero 0 [.name "a", .name "c"]]]] 0 = .ok e s ∧
      Record.eval e [] = .ok (Record.hash m) ["a", "b", "a", "c"] ∧
      m.keys = [.name "a"] ∧ m.value (.name "a") = some (.name "c") := by
  obtain ⟨e, s, he, hlist⟩ := (splats_in_order Record.meaning _ _ _).1
  obtain ⟨e', s', he', hhash⟩ := (splats_in_order Record.meaning _ _ _).2
  refine ⟨⟨e, s, he, (congrFun hlist []).trans rfl⟩, e', s', _, he', (congrFun hhash []).trans rfl, ?_, ?_⟩
  all_goals simp [Record.entries_hash, Dict.merge, Dict.put, Dict.empty]

end Splat

end Garnet
