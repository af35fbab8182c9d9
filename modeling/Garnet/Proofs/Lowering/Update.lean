import Garnet.Lowering.Sugar
import Garnet.Proofs.Outcome
import Garnet.Proofs.Tree.Everywhere

/-!
# What an operator assignment does

An operator assignment to an attribute or an element holds the receiver and the arguments in variables, in
their order, and then reads and writes the target by these variables (`expressed`). `trace` tells what is done
when such a tree is evaluated (`update_in_order`).

Below a safe call, the rest is left out if a safe call in the receiver meets `nil` (`update_skips_iff`). The
last call is not among these: it is expressed as a plain one, so `nil` gets it (`update_asks_nil`).
-/

namespace Garnet

namespace OperatorAssignment

open List Node Garnet.Tree Sugar

/-! ### What is done when a tree is evaluated -/

/-- What is done. Forms that are not looked into are done as a whole. -/
inductive Event where
  | get (var : String)
  | set (var : String)
  | call (method : String)
  | whole (e : Tree)

mutual

/-- What is done in order, if `o` tells the truth of trees; `nil` has none. -/
def trace (o : Tree → Option Bool) : Tree → List Event
  | .name v => [.get v]
  | .node .seq _ _ es => traceAll o es
  | .node .assign _ _ [.name v, e] => trace o e ++ [.set v]
  | .node .or _ _ [a, b] => trace o a ++ if o a = some true then [] else trace o b
  | .node .and _ _ [a, b] => trace o a ++ if o a = some true then trace o b else []
  | .node .send _ _ [r, .name f, .node .args _ _ as, .absent] => trace o r ++ traceAll o as ++ [.call f]
  | .node .safeSend _ _ [r, .name f, .node .args _ _ as, .absent] =>
    trace o r ++ if o r = none then [] else traceAll o as ++ [.call f]
  | .node .safeChain _ _ [.node .seq _ _ (.node .assign _ _ [.name v, e] :: es)] =>
    (link o e).1 ++ if (link o e).2 then .set v :: traceAll o es else []
  | .node .safeChain _ _ [e] => (link o e).1
  | e => [.whole e]

def traceAll (o : Tree → Option Bool) : List Tree → List Event
  | [] => []
  | e :: es => trace o e ++ traceAll o es

/-- What is done for a link of a chain, and whether the chain goes on behind it. -/
def link (o : Tree → Option Bool) : Tree → List Event × Bool
  | .node .send _ _ [r, .name f, .node .args _ _ as, .absent] =>
    if (link o r).2 then ((link o r).1 ++ traceAll o as ++ [.call f], true) else link o r
  | .node .safeSend _ _ [r, .name f, .node .args _ _ as, .absent] =>
    if (link o r).2 ∧ o r ≠ none then ((link o r).1 ++ traceAll o as ++ [.call f], true)
    else ((link o r).1, false)
  | e => (trace o e, true)

end

lemma traceAll_append (o : Tree → Option Bool) (es es' : List Tree) :
    traceAll o (es ++ es') = traceAll o es ++ traceAll o es' := by
  induction es with
  | nil => rw [traceAll, nil_append, nil_append]
  | cons e es ih => rw [cons_append, traceAll, ih, traceAll, append_assoc]

/-! ### The tree that is made -/

def sent (span : Span) (i : Nat) (r : Tree) (f : String) (as : List Tree) : Tree :=
  .node .send span (i + 1) [r, .name f, .node .args span i as, .absent]

def var (stem : String) (i : Nat) : String := s!"__{stem}{i}"

/-- A tree is held in the variable with a number. -/
def hold (stem : String) (span : Span) (h : Nat × Tree) : Tree :=
  .node .assign span (h.1 + 1) [.name (var stem h.1), h.2]

/-- The target, which the method `f` reads, gets its new value. -/
def core (op : String) (span : Span) (f : String) (r : Tree) (as : List Tree) (value : Tree) (i : Nat) : Tree :=
  let read := sent span i r f as
  let write (v : Tree) (j : Nat) := sent span j r (Build.setter f) (as ++ [v])
  if op = "||" ∨ op = "&&" then .node (if op = "||" then .or else .and) span (i + 4) [read, write value (i + 2)]
  else write (sent span (i + 2) read op [value]) (i + 4)

def cost (op : String) : Nat := if op = "||" ∨ op = "&&" then 5 else 6

def operator (n : Node) : String := (n.name? 1).getD "+"

def reader (t : Node) : String := (t.name? 1).getD "[]"

def names (held : List (Nat × Tree)) : List Tree := held.map fun h => .name (var "idx" h.1)

/-- The operator assignment `n` to the target `t`, with the receiver `r` and the arguments `held` in variables. -/
def expressed (n t : Node) (value : Tree) (r : Nat × Tree) (held : List (Nat × Tree)) (i : Nat) : Tree :=
  .node .seq n.span (i + cost (operator n)) (hold "recv" n.span r :: held.map (hold "idx" n.span) ++
    [core (operator n) n.span (reader t) (.name (var "recv" r.1)) (names held) value i])

/-- The call that a target is, within safe calls or not. -/
def called? : Tree → Option Node
  | .node .safeChain _ _ (e :: _) => called? e
  | .node tag s i cs => if tag = .send ∨ tag = .safeSend then some ⟨tag, s, i, cs⟩ else none
  | _ => none

/-- The tree within the safe calls around a target. -/
def within : Tree → Tree → Tree
  | .node .safeChain s i (e :: _), body => .node .safeChain s i [within e body]
  | _, body => body

/-- A part of the target is lowered, and takes two numbers for its variable and the assignment. -/
def held (low : Tree → Pass Tree) (a : Tree) : Pass (Nat × Tree) := do
  let e ← low a
  modifyGet fun i => ((i, e), i + 2)

section

variable {rec low : Tree → Pass Tree} {span : Span} {n t : Node} {as : List Tree}

lemma holdArguments_eq : holdArguments rec span as = (do
    let hs ← as.mapM (held rec)
    return (hs.map (hold "idx" span), names hs)) := by
  induction as with
  | nil => rfl
  | cons a as ih =>
    rw [holdArguments, mapM_cons, ih, held]
    simp only [bind_assoc, pure_bind]
    rfl

lemma combine_sent (op f : String) (r value : Tree) (i : Nat) :
    combine op (sent span i r f as) value span (i + 2) = .ok (core op span f r as value i) (i + cost op) := by
  simp only [combine, core, cost, Bool.or_eq_true, beq_iff_eq]
  split
  · split <;> rfl
  · rfl

lemma lower_call (ht : n.child 0 = t.tree) (htag : t.tag = .send ∨ t.tag = .safeSend) : lower rec n = (do
      let value ← rec (n.child 2)
      let r ← held rec (t.child 0)
      let hs ← (t.child 2).children.mapM (held rec)
      modifyGet fun i => (expressed n t value r hs i, i + cost (operator n) + 1)) := by
  have hl : lower rec n = (do
      let value ← rec (n.child 2)
      let target ← readTarget rec t.tree n.span
      let result ← combine (operator n) target.2 value n.span
      if target.1.isEmpty then return result else Build.seq n.span (target.1 ++ [result])) := by
    rw [lower, ht]
    obtain ⟨tag, s, id, children⟩ := t
    rcases htag with rfl | rfl <;> rfl
  have hr : readTarget rec t.tree n.span = (do
      let r ← held rec (t.child 0)
      let args ← holdArguments rec n.span (t.child 2).children
      let read ← Build.send n.span (.name (var "recv" r.1)) (reader t) args.2
      return (hold "recv" n.span r :: args.1, read)) := by
    obtain ⟨tag, s, id, children⟩ := t
    rw [held, bind_assoc]
    rcases htag with rfl | rfl <;> rfl
  rw [hl, hr, holdArguments_eq]
  simp only [bind_assoc, pure_bind]
  refine bind_congr fun value => bind_congr fun r => bind_congr fun hs => funext fun i => ?_
  change EStateM.bind (combine (operator n) (sent n.span i _ (reader t) (names hs)) value n.span) _ (i + 2) = _
  rw [EStateM.bind, combine_sent]
  rfl

lemma size_rebuild_lt {sp : Span} {id : Nat} {c : Tree} {cs : List Tree}
    (h : n.child 0 = .node .safeChain sp id (c :: cs)) :
    (n.rebuild [c, n.child 1, n.child 2]).size < n.tree.size := by
  have hsum : (n.child 0).size + (n.child 1).size + (n.child 2).size ≤ sizeOfAll n.children := by
    simp only [child]
    rcases n.children with _ | ⟨_, _ | ⟨_, _ | _⟩⟩ <;> simp [sizeOfAll, size] <;> omega
  rw [h] at hsum
  simp only [rebuild, tree, size, sizeOfAll] at hsum ⊢
  omega

variable {k : Bool}

lemma recurse_opAssign (htag : n.tag = .opAssign) : recurse step k n.tree =
    lower (fun c => if c.size < n.tree.size then recurse step k c else pure default) n := by
  obtain ⟨tag, sp, id, children⟩ := n
  obtain rfl : tag = .opAssign := htag
  rw [recurse_eq]
  rfl

/-- Lowering an operator assignment to the target `t`. -/
def Expresses (k : Bool) (n t : Node) : Prop := recurse step k n.tree = do
    let value ← recurse step k (n.child 2)
    let r ← held (recurse step k) (t.child 0)
    let hs ← (t.child 2).children.mapM (held (recurse step k))
    modifyGet fun i => (within (n.child 0) (expressed n t value r hs i), i + cost (operator n) + 1)

lemma expresses (htag : n.tag = .opAssign) (ht : called? (n.child 0) = some t) : Expresses k n t := by
  generalize htar : n.child 0 = target at ht
  fun_induction called? target generalizing n with
  | case1 sp id c cs ih =>
    let m : Node := ⟨n.tag, n.span, n.id, [c, n.child 1, n.child 2]⟩
    have hchain : recurse step k n.tree = (do
        let body ← recurse step k m.tree
        return .node .safeChain sp id [body]) := by
      rw [recurse_opAssign htag, lower, htar]
      exact congrArg (· >>= _) (if_pos (size_rebuild_lt htar))
    rw [Expresses, hchain, ih (n := m) htag rfl ht, htar]
    simp only [bind_assoc]
    rfl
  | case2 tag sp id cs _ hc =>
    cases ht
    have hlt : (node tag sp id cs).size < n.tree.size := htar ▸ n.size_child_lt 0
    have hw body : within (.node tag sp id cs) body = body := by
      rcases hc with rfl | rfl <;> rfl
    have hp {a} {j} (ha : a.size ≤ (child ⟨tag, sp, id, cs⟩ j).size) :
        held (fun c => if c.size < n.tree.size then recurse step k c else pure default) a =
          held (recurse step k) a := by
      have hchi := size_child_lt ⟨tag, sp, id, cs⟩ j
      rw [held, held, if_pos (Nat.lt_of_le_of_lt ha (Nat.lt_trans hchi hlt))]
    rw [Expresses, recurse_opAssign htag, lower_call (t := ⟨tag, sp, id, cs⟩) htar hc,
      if_pos (n.size_child_lt 2), htar, hp (Nat.le_refl _), mapM_congr fun a ha => hp (j := 2) ?_]
    · simp only [hw]
    · exact Nat.le_of_lt (size_lt_of_mem_children ha)
  | case3 => cases ht
  | case4 => cases ht

/-! ### What it does -/

variable {o : Tree → Option Bool} {hs : List (Nat × Tree)}

/-- What is done for the receiver, and whether the chain around the target goes on behind it. -/
def started (o : Tree → Option Bool) (target receiver : Tree) : List Event × Bool :=
  if target.is .safeChain then link o receiver else (trace o receiver, true)

/-- What is done behind the receiver and the arguments, which are had by `gets`: the target is read by `f`, and
written if what was `read` asks for it. -/
def turn (o : Tree → Option Bool) (op f : String) (gets : List Event) (read value : Tree) : List Event :=
  let write := gets ++ trace o value ++ [.call (Build.setter f)]
  if op = "||" then gets ++ [.call f] ++ if o read = some true then [] else write
  else if op = "&&" then gets ++ [.call f] ++ if o read = some true then write else []
  else gets ++ (gets ++ [.call f]) ++ trace o value ++ [.call op, .call (Build.setter f)]

/-- What an operator assignment does: the receiver, the arguments, and then the target's turn. -/
def order (o : Tree → Option Bool) (n t : Node) (value : Tree) (r : Nat × Tree) (hs : List (Nat × Tree)) (i : Nat) :
    List Event :=
  let recv := var "recv" r.1
  (started o (n.child 0) r.2).1 ++ if (started o (n.child 0) r.2).2 then
    .set recv :: (hs.flatMap (fun h => trace o h.2 ++ [.set (var "idx" h.1)]) ++
      turn o (operator n) (reader t) (.get recv :: hs.map fun h => .get (var "idx" h.1))
        (sent n.span i (.name recv) (reader t) (names hs)) value)
  else []

lemma trace_sent (i : Nat) (r : Tree) (f : String) :
    trace o (sent span i r f as) = trace o r ++ traceAll o as ++ [.call f] := by
  rw [sent, trace]

lemma traceAll_holds : traceAll o (hs.map (hold "idx" span)) =
    hs.flatMap fun h => trace o h.2 ++ [.set (var "idx" h.1)] := by
  induction hs with
  | nil => rw [map_nil, traceAll, flatMap_nil]
  | cons h hs ih => rw [map_cons, traceAll, ih, hold, trace, flatMap_cons]

lemma traceAll_names : traceAll o (names hs) = hs.map fun h => .get (var "idx" h.1) := by
  induction hs with
  | nil => rw [names, map_nil, traceAll, map_nil]
  | cons h hs ih => rw [names, map_cons, traceAll, ← names, ih, trace, map_cons, singleton_append]

lemma trace_core (op f v : String) (value : Tree) (i : Nat) :
    trace o (core op span f (.name v) (names hs) value i) =
      turn o op f (.get v :: hs.map fun h => .get (var "idx" h.1)) (sent span i (.name v) f (names hs)) value := by
  have hn : trace o (.name v) = [.get v] := by rw [trace]
  simp only [core, turn]
  split
  · rename_i hop
    rcases hop with rfl | rfl
    all_goals simp [trace, trace_sent, hn, traceAll_names, traceAll_append, traceAll]
  · rename_i hop
    rw [not_or] at hop
    simp [hop, trace_sent, hn, traceAll_names, traceAll_append, traceAll]

lemma trace_within {target r : Tree} {v : String} {i j : Nat} {es : List Tree} (ht : (called? target).isSome) :
    trace o (within target (.node .seq span i (.node .assign span j [.name v, r] :: es))) =
      (started o target r).1 ++ if (started o target r).2 then .set v :: traceAll o es else [] := by
  fun_induction called? target with
  | case1 sp id c cs ih =>
    have ih := ih ht
    change trace o (.node .safeChain sp id [within c _]) = (link o r).1 ++ if (link o r).2 then _ else _
    fun_cases called? c with
    | case1 =>
      change trace o (.node .safeChain _ _ [.node .safeChain _ _ [_]]) = _
      rw [trace, link]
      · exact ih
      all_goals nofun
    | case2 tag sp id cs _ hc =>
      rcases hc with rfl | rfl
      all_goals
        change trace o (.node .safeChain _ _ [.node .seq span i (.node .assign span j [.name v, r] :: es)]) = _
        rw [trace]
    | case3 _ _ _ _ _ hc => simp [called?, hc] at ht
    | case4 => simp_all [called?]
  | case2 tag sp id cs _ hc =>
    rcases hc with rfl | rfl
    all_goals
      change trace o (.node .seq span i (.node .assign span j [.name v, r] :: es)) = trace o r ++ .set v :: traceAll o es
      rw [trace, traceAll, trace, append_assoc, singleton_append]
  | case3 | case4 => cases ht

lemma trace_expressed (ht : called? (n.child 0) = some t) (value : Tree) (r : Nat × Tree) (i : Nat) :
    trace o (within (n.child 0) (expressed n t value r hs i)) = order o n t value r hs i := by
  rw [expressed, hold, cons_append, trace_within (ht ▸ rfl), traceAll_append, traceAll_holds, traceAll,
    trace_core, traceAll, append_nil]
  rfl

/-- **What an operator assignment does, in order.** For a target that is an attribute or an element, it is
expressed exactly if its parts are: by one tree, in which the receiver and each argument are held in a variable,
in their order, and behind these the target is read and then, by the value, written. Each part stands there
once. If the chain around the target does not end early, all this is done in this order; but `||=` and `&&=` come
to the value and the write only if what was read asks for it. -/
theorem update_in_order (htag : n.tag = .opAssign) (ht : called? (n.child 0) = some t) (k : Bool) :
    Expresses k n t ∧ ∀ o value r hs i,
      trace o (within (n.child 0) (expressed n t value r hs i)) = order o n t value r hs i :=
  ⟨expresses htag ht, fun _ value r _ i => trace_expressed ht value r i⟩

lemma recurse_leaf {e : Tree} (h : e.node? = none) : recurse step k e = pure e := by
  rw [recurse_eq, step, h]

/-- `a[b] ||= c` -/
def elementUpdate : Node :=
  ⟨.opAssign, .zero, 3, [.node .send .zero 2 [.name "a", .name "[]", .node .args .zero 1 [.name "b"], .absent],
    .name "||", .name "c"]⟩

/-- If the element is there, it is not written. -/
theorem update_in_order_element : ∃ e s', lowerSugar elementUpdate.tree 4 = .ok e s' ∧
    trace (fun _ => some true) e = [.get "a", .set (var "recv" 4), .get "b", .set (var "idx" 6),
      .get (var "recv" 4), .get (var "idx" 6), .call "[]"] := by
  obtain ⟨hexpr, htrace⟩ := update_in_order (n := elementUpdate) rfl rfl false
  have hleaf v : Tree.recurse Sugar.step false (.name v) = pure (.name v) := recurse_leaf rfl
  refine ⟨_, 14, (congrFun hexpr 4).trans ?_, (htrace _ (.name "c") (4, .name "a") [(6, .name "b")] 8).trans ?_⟩
  · simp [elementUpdate, Node.child, Tree.children, held, hleaf]
    rfl
  · simp [order, started, elementUpdate, Node.child, trace, turn, operator, Node.name?, Tree.name?, Tree.is, reader]

/-- **When an operator assignment is skipped.** Below a safe call nothing is done behind the receiver if the
chain ends in the receiver, where a safe call meets `nil`. If it does not end there the target is read, whether
its last call is a safe one or not and whatever the receiver is. -/
theorem update_skips_iff (htag : n.tag = .opAssign) (ht : called? (n.child 0) = some t) {e : Tree} {s s' : Nat}
    (h : recurse step k n.tree s = .ok e s') :
    ∃ u receiver u', recurse step k (t.child 0) u = .ok receiver u' ∧ ∀ o,
      ((n.child 0).is .safeChain ∧ (link o receiver).2 = false → trace o e = (link o receiver).1) ∧
      (¬((n.child 0).is .safeChain ∧ (link o receiver).2 = false) →
        ∃ es, trace o e = (started o (n.child 0) receiver).1 ++ es ∧ .call (reader t) ∈ es) := by
  rw [expresses htag ht] at h
  obtain ⟨value, _, -, h⟩ := bind_eq_ok.mp h
  obtain ⟨r, _, hr, h⟩ := bind_eq_ok.mp h
  obtain ⟨receiver, u, hreceiver, hr⟩ := bind_eq_ok.mp hr
  cases hr
  obtain ⟨hs, i, -, h⟩ := bind_eq_ok.mp h
  cases h
  refine ⟨_, receiver, u, hreceiver, fun o => ⟨fun ⟨hchain, hend⟩ => ?_, fun hgoes => ?_⟩⟩
  · simp [trace_expressed ht, order, started, hchain, hend]
  · have hstarted : (started o (n.child 0) receiver).2 = true := by
      rw [started]
      split
      · rename_i hchain
        exact Bool.of_not_eq_false fun hend => hgoes ⟨hchain, hend⟩
      · rfl
    rw [trace_expressed ht, order, if_pos hstarted]
    refine ⟨_, rfl, mem_cons_of_mem _ (mem_append_right _ ?_)⟩
    rw [turn]
    split
    · simp
    · split <;> simp

/-- `receiver&.name += 1` -/
def safeUpdate (receiver : Tree) (name : String) : Node :=
  ⟨.opAssign, .zero, 9, [.node .safeChain .zero 8 [.node .safeSend .zero 7 [receiver, .name name,
    .node .args .zero 6 [], .absent]], .name "+", .int 1]⟩

/-- `o&.a` -/
def safeRead : Tree := .node .safeSend .zero 5 [.name "o", .name "a", .node .args .zero 4 [], .absent]

lemma lowerSugar_safeUpdate {receiver : Tree} (h : Tree.recurse Sugar.step false receiver = pure receiver)
    (name : String) : lowerSugar (safeUpdate receiver name).tree 10 =
      .ok (within ((safeUpdate receiver name).child 0) (expressed (safeUpdate receiver name)
        ⟨.safeSend, .zero, 7, [receiver, .name name, .node .args .zero 6 [], .absent]⟩ (.int 1) (10, receiver) [] 12)) 19 := by
  refine (congrFun (expresses (k := false) (n := safeUpdate receiver name) rfl rfl) 10).trans ?_
  have hone : Tree.recurse Sugar.step false (.int 1) = pure (.int 1) := recurse_leaf rfl
  simp [safeUpdate, Node.child, Tree.children, held, hone, h]
  rfl

lemma recurse_safeRead : Tree.recurse Sugar.step false safeRead = pure safeRead := by
  have hn : Tree.recurse Sugar.step false (.name "o") = pure (.name "o") := recurse_leaf rfl
  have ha : Tree.recurse Sugar.step false .absent = pure .absent := recurse_leaf rfl
  rw [Tree.recurse_eq]
  simp [safeRead, Sugar.step, Sugar.send, Sugar.arguments, Sugar.block, Sugar.denied?, Tree.node?, Tree.name?,
    Tree.size, Tree.sizeOfAll, Node.child, Node.name?, Node.rebuild, hn, ha]

/-- In `o&.a&.b += 1`, if `o` is `nil` nothing is done behind it. -/
theorem update_skips_iff_chain : ∃ e s', lowerSugar (safeUpdate safeRead "b").tree 10 = .ok e s' ∧
    trace (fun _ => none) e = [.get "o"] := by
  have h := lowerSugar_safeUpdate recurse_safeRead "b"
  obtain ⟨u, receiver, u', hreceiver, hskips⟩ := update_skips_iff (n := safeUpdate safeRead "b") rfl rfl h
  cases (congrFun recurse_safeRead u).symm.trans hreceiver
  have hlink : link (fun _ => none) safeRead = ([.get "o"], false) := by simp [safeRead, link, trace]
  exact ⟨_, _, h, ((hskips _).1 ⟨rfl, by rw [hlink]⟩).trans (by rw [hlink])⟩

/-- But in `o&.a += 1`, if `o` is `nil` it is asked for `a`. -/
theorem update_asks_nil : ∃ e s', lowerSugar (safeUpdate (.name "o") "a").tree 10 = .ok e s' ∧
    trace (fun _ => none) e = [.get "o", .set (var "recv" 10), .get (var "recv" 10), .get (var "recv" 10),
      .call "a", .whole (.int 1), .call "+", .call "a="] := by
  refine ⟨_, _, lowerSugar_safeUpdate (recurse_leaf rfl) "a", ?_⟩
  rw [trace_expressed rfl]
  simp [order, started, safeUpdate, Node.child, trace, link, turn, operator, Node.name?, Tree.name?, Tree.is, reader,
    Build.setter]

end

end OperatorAssignment

end Garnet
