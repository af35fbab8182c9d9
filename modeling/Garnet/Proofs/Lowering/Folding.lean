import Garnet.Lowering.Constant
import Garnet.Proofs.Integer.Decimal
import Garnet.Proofs.Tree.Everywhere

/-!
# Constant folding preserves meaning

A reading of trees gives each tree a value, and the value of a node depends on its children through their
values alone. It reads numerals as numbers and a call of an operation on integers as that operation. No such
reading tells a tree from the folded tree (`fold_preserves`).

What folding does at one call is settled by `call?_eq`, in terms of numbers. All else follows from it by
induction on the tree.
-/

namespace Garnet

open List Integer Numeral Garnet.Tree Constant

variable {e : Tree} {n : Node}

namespace Constant

/-- What an operation on integers gives. -/
inductive Value where
  | number (n : Int)
  | truth (b : Bool)

/-- The exact result of an operation on a number and its arguments. -/
def result? (op : String) (a : Int) (args : List Int) : Option Value := match op, args with
  | "-@", [] => some (.number (-a))
  | "+", [b] => some (.number (a + b))
  | "-", [b] => some (.number (a - b))
  | "*", [b] => some (.number (a * b))
  | "**", [b] => if 0 ≤ b then some (.number (a ^ b.toNat)) else none
  | "<", [b] => some (.truth (a < b))
  | "<=", [b] => some (.truth (a ≤ b))
  | ">", [b] => some (.truth (a > b))
  | ">=", [b] => some (.truth (a ≥ b))
  | "==", [b] => some (.truth (a = b))
  | _, _ => none

def Value.tree : Value → Tree
  | .number n => if fitsWord n then .int n else .big (decimal n)
  | .truth b => .bool b

def number? : Tree → Option Int
  | .int n => some n
  | .big s => Numeral.number? s
  | _ => none

/-- The result that is put in the place of a call: none for a power whose exponent is too great. -/
def computed? (op : String) (a : Int) (args : List Int) : Option Value :=
  if op = "**" ∧ ∃ b ∈ args, maxExponent < b then none else result? op a args

/-! ### One call -/

variable {a b : Integer}

lemma integer?_spec : (integer? e).map toInt = number? e := by
  cases e with
  | int n => exact congrArg some (denotes_ofInt n).toInt_eq
  | big s => exact toInt_parse? s
  | _ => rfl

lemma isNormal_of_integer? (h : integer? e = some a) : a.IsNormal := by
  cases e with
  | int n =>
    cases h
    exact (denotes_ofInt n).isNormal
  | big s => exact (denotes_of_parse? h).isNormal
  | _ => cases h

lemma literal_eq (ha : a.IsNormal) : literal a = (Value.number a.toInt).tree := by
  rw [literal, toWord?_eq ha, text_eq ha, Value.tree]
  by_cases hf : fitsWord a.toInt = true
  · simp only [if_pos hf]
  · simp only [if_neg hf]

lemma denotes_power (ha : a.IsNormal) (n : Nat) : (power a n).Denotes (a.toInt ^ n) := by
  induction n with
  | zero =>
    rw [pow_zero]
    exact denotes_ofInt 1
  | succ n ih =>
    have hmul := (denotes_sums ih.isNormal ha).2.2
    rwa [ih.toInt_eq, ← pow_succ] at hmul

lemma literal_eq_of_denotes {n : Int} (h : a.Denotes n) : literal a = (Value.number n).tree := by
  rw [literal_eq h.isNormal, h.toInt_eq]

lemma power?_eq (ha : a.IsNormal) (hb : b.IsNormal) :
    (power? a b).map literal = (computed? "**" a.toInt [b.toInt]).map Value.tree := by
  have hl n := literal_eq_of_denotes (denotes_power ha n)
  have hmax : maxExponent = 256 := rfl
  simp only [power?, toWord?_eq hb, computed?, result?, mem_singleton, exists_eq_left,
    true_and, Bool.and_eq_true, decide_eq_true_eq, Option.bind_eq_bind]
  by_cases hexp : 0 ≤ b.toInt ∧ b.toInt ≤ maxExponent
  · have hf : fitsWord b.toInt = true := by
      rw [fitsWord_iff]
      omega
    rw [if_pos hf, Option.bind_some, if_pos hexp, if_neg (by omega), if_pos hexp.1,
      Option.map_some, Option.map_some, hl]
  · have hno : (if fitsWord b.toInt = true then some b.toInt else none).bind
        (fun n => if 0 ≤ n ∧ n ≤ maxExponent then some (power a n.toNat) else none) = none := by
      rw [Option.bind_eq_none_iff]
      intro n hn
      split at hn
      · cases hn
        exact if_neg hexp
      · cases hn
    rw [hno]
    by_cases hbig : (maxExponent : Int) < b.toInt
    · rw [if_pos hbig]
      rfl
    · rw [if_neg hbig, if_neg (by omega)]
      rfl

lemma evaluate?_eq (op : String) (ha : a.IsNormal) (hb : b.IsNormal) :
    evaluate? op a b = (computed? op a.toInt [b.toInt]).map Value.tree := by
  have hc : compare a b = compare a.toInt b.toInt := compare_eq_compare_toInt ha hb
  have hlt : (compare a.toInt b.toInt == .lt) = decide (a.toInt < b.toInt) := by
    rw [Bool.eq_iff_iff]
    simp [compare_lt_iff_lt]
  have hgt : (compare a.toInt b.toInt == .gt) = decide (a.toInt > b.toInt) := by
    rw [Bool.eq_iff_iff]
    simp [compare_gt_iff_gt]
  obtain ⟨hadd, hsub, hmul⟩ := denotes_sums ha hb
  unfold evaluate?
  split
  · exact congrArg some (literal_eq_of_denotes hadd)
  · exact congrArg some (literal_eq_of_denotes hsub)
  · exact congrArg some (literal_eq_of_denotes hmul)
  · exact power?_eq ha hb
  · rw [hc, hlt]
    rfl
  · rw [hc, bne, hgt, ← decide_not]
    simp only [Int.not_lt]
    rfl
  · rw [hc, hgt]
    rfl
  · rw [hc, bne, hlt, ← decide_not]
    simp only [Int.not_lt]
    rfl
  · have heq : (compare a.toInt b.toInt == .eq) = decide (a.toInt = b.toInt) := by
      rw [Bool.eq_iff_iff]
      simp
    rw [hc, heq]
    rfl
  · rename_i _ _ _ hpow _ _ _ _ _
    rw [computed?, if_neg fun h => hpow h.1]
    unfold result?
    split <;> simp_all

lemma result?_cons_cons (op : String) (n b c : Int) (args : List Int) :
    result? op n (b :: c :: args) = none := by
  unfold result?
  split <;> first | rfl | (rename_i h; cases h)

lemma computed?_nil (op : String) (n : Int) :
    computed? op n [] = if op == "-@" then some (.number (-n)) else none := by
  rw [computed?, if_neg (by simp)]
  unfold result?
  split <;> simp_all

theorem call?_eq : call? n = if (n.child 3).isAbsent then do
        let a ← number? (n.child 0)
        let op ← (n.child 1).name?
        let args ← (n.child 2).children.mapM number?
        (computed? op a args).map Value.tree
      else none := by
  unfold call?
  by_cases hblock : (n.child 3).isAbsent = true
  · simp only [hblock, Bool.not_true, if_true, ← integer?_spec]
    cases hl : integer? (n.child 0) with
    | none => rfl
    | some a =>
      cases hop : (n.child 1).name? with
      | none => rfl
      | some op =>
        have ha := isNormal_of_integer? hl
        simp only [Bool.false_eq_true, if_false, Option.map_some, Option.bind_eq_bind, Option.bind_some]
        rcases (n.child 2).children with - | ⟨right, - | ⟨third, rest⟩⟩
        · simp only [mapM_nil, Option.pure_def, Option.bind_some, computed?_nil]
          split
          · exact congrArg some (literal_eq_of_denotes (denotes_neg ha))
          · rfl
        · simp only [mapM_cons, ← integer?_spec]
          cases hr : integer? right with
          | none => rfl
          | some b => exact evaluate?_eq op ha (isNormal_of_integer? hr)
        · symm
          rw [Option.bind_eq_none_iff]
          intro args hargs
          simp only [mapM_cons, Option.bind_eq_bind, Option.bind_eq_some_iff, Option.pure_def,
            Option.some.injEq] at hargs
          obtain ⟨b, -, bs, ⟨c, -, cs, -, rfl⟩, rfl⟩ := hargs
          rw [computed?, result?_cons_cons, ite_self]
          rfl
  · simp [hblock]

end Constant

/-! ### The whole tree -/

lemma foldAll_eq_map (es : List Tree) : foldAll es = es.map fold := by
  induction es with
  | nil => rfl
  | cons e es ih => rw [foldAll, ih, map_cons]

lemma fold_of_node? (h : e.node? = none) : fold e = e := by
  cases e with
  | node tag span id children => cases h
  | _ => rfl

namespace Node

def foldedChildren (n : Node) : Node := { n with children := n.children.map fold }

/-- The arguments of a call stand in a node of their own. -/
def HasArgs (n : Node) : Prop := n.tag = .send → (n.child 2).is .args

/-- The node is a call, without a block, of an operation on literals, and its result is computed. -/
def Computes (n : Node) (r : Value) : Prop := n.tag = .send ∧ (n.child 3).isAbsent ∧
    ∃ op a args, n.child 1 = .name op ∧ number? (n.child 0) = some a ∧
      (n.child 2).children.mapM Constant.number? = some args ∧ Constant.computed? op a args = some r

lemma child_foldedChildren (i : Nat) : n.foldedChildren.child i = fold (n.child i) := by
  rw [child, child, foldedChildren, getElem?_map]
  cases n.children[i]? <;> rfl

end Node

lemma call?_eq_some (hn : n.tag = .send) : call? n = some e ↔ ∃ r, n.Computes r ∧ e = r.tree := by
  have hna op : (n.child 1).name? = some op ↔ n.child 1 = .name op := by
    cases n.child 1 <;> simp [name?]
  rw [call?_eq]
  split
  · rename_i hblock
    simp only [Option.bind_eq_bind, Option.bind_eq_some_iff, Option.map_eq_some_iff, hna,
      Node.Computes, hn, hblock, true_and]
    constructor
    · rintro ⟨a, ha, op, hop, args, hargs, r, hr, rfl⟩
      exact ⟨r, ⟨op, a, args, hop, ha, hargs, hr⟩, rfl⟩
    · rintro ⟨r, ⟨op, a, args, hop, ha, hargs, hr⟩, rfl⟩
      exact ⟨a, ha, op, hop, args, hargs, r, hr, rfl⟩
  · rename_i hblock
    simp [Node.Computes, hblock]

lemma fold_tree (n : Node) : (∃ r, n.foldedChildren.Computes r ∧ fold n.tree = r.tree) ∨
      (∀ r, ¬n.foldedChildren.Computes r) ∧ fold n.tree = n.foldedChildren.tree := by
  have hfold : fold n.tree =
      if n.tag == .send then (call? n.foldedChildren).getD n.foldedChildren.tree
      else n.foldedChildren.tree := by
    rw [Node.tree, fold, foldAll_eq_map]
    rfl
  rw [hfold]
  by_cases htag : n.tag = .send
  · have htag' : n.foldedChildren.tag = .send := htag
    rw [if_pos (by simpa using htag)]
    cases hc : call? n.foldedChildren with
    | some e =>
      obtain ⟨r, hr, rfl⟩ := (call?_eq_some htag').mp hc
      exact .inl ⟨r, hr, rfl⟩
    | none =>
      refine .inr ⟨fun r hr => ?_, rfl⟩
      rw [(call?_eq_some htag').mpr ⟨r, hr, rfl⟩] at hc
      cases hc
  · rw [if_neg (by simpa using htag)]
    exact .inr ⟨fun r hr => htag hr.1, rfl⟩

lemma is_fold {tag : Tag} (hne : tag ≠ .send) (h : e.is tag) : (fold e).is tag := by
  cases e with
  | node t span id children =>
    have ht : t = tag := by simpa [is] using h
    obtain ⟨r, hr, -⟩ | ⟨-, hfold⟩ := fold_tree ⟨t, span, id, children⟩
    · exact absurd (ht.symm.trans hr.1) hne
    · rw [Node.tree] at hfold
      rwa [hfold]
  | _ => cases h

lemma Constant.Value.node?_tree (r : Value) : r.tree.node? = none := by
  cases r with
  | number n =>
    rw [tree]
    split <;> rfl
  | truth b => rfl

lemma everywhere_fold (e : Tree) : (fold e).Everywhere fun n => ∀ r, ¬n.Computes r := by
  induction e using induction_on_nodes with
  | leaf e he =>
    rw [fold_of_node? he]
    exact everywhere_of_node? he
  | node n ih =>
    obtain ⟨r, -, hfold⟩ | ⟨hn, hfold⟩ := fold_tree n
    · rw [hfold]
      exact everywhere_of_node? r.node?_tree
    · rw [hfold]
      refine everywhere_node.mpr ⟨hn, fun c hc => ?_⟩
      obtain ⟨d, hd, rfl⟩ := mem_map.mp hc
      exact ih d hd

lemma fold_eq_self (h : e.Everywhere fun n => ∀ r, ¬n.Computes r) : fold e = e := by
  induction e using induction_on_nodes with
  | leaf e he => exact fold_of_node? he
  | node n ih =>
    obtain ⟨hn, hchi⟩ := everywhere_node.mp h
    have hmap : n.foldedChildren = n := by
      have hchi : n.children.map fold = n.children :=
        (map_congr_left fun c hc => ih c hc (hchi c hc)).trans (map_id _)
      rw [Node.foldedChildren, hchi]
    obtain ⟨r, hr, -⟩ | ⟨-, hfold⟩ := fold_tree n
    · rw [hmap] at hr
      exact absurd hr (hn r)
    · rw [hfold, hmap]

/-! ### Readings -/

universe u

/-- A reading of trees: the value of a node depends on its children through their values alone,
numerals are read as numbers, and a call of an operation on integers, without a block, has the value of
the exact result. -/
structure Reading (V : Type u) where
  value : Tree → V
  number : Int → V
  value_node : ∀ {tag : Tag} {span : Span} {id : Nat} {es es' : List Tree},
    es.map value = es'.map value → value (.node tag span id es) = value (.node tag span id es')
  value_int : ∀ n, value (.int n) = number n
  value_big : ∀ s n, Numeral.number? s = some n → value (.big s) = number n
  value_call : ∀ (n : Node) (op : String) (a : Int) (args : List Int) (r : Constant.Value),
    n.tag = .send → (n.child 3).isAbsent → n.child 1 = .name op → value (n.child 0) = number a →
    (n.child 2).is .args → (n.child 2).children.map value = args.map number →
    Constant.result? op a args = some r →
    value n.tree = match r with
      | .number k => number k
      | .truth b => value (.bool b)

namespace Reading

variable {V : Type u} (M : Reading V)

def result : Value → V
  | .number n => M.number n
  | .truth b => M.value (.bool b)

lemma value_tree (r : Value) : M.value r.tree = M.result r := by
  cases r with
  | truth b => rfl
  | number n =>
    rw [Value.tree]
    split
    · exact M.value_int n
    · exact M.value_big _ n (number?_decimal n)

lemma value_of_number? {n : Int} (h : number? e = some n) : M.value e = M.number n := by
  cases e with
  | int k =>
    cases h
    exact M.value_int n
  | big s => exact M.value_big s n h
  | _ => cases h

lemma map_value_of_mapM {es : List Tree} {ns : List Int}
    (h : es.mapM Constant.number? = some ns) : es.map M.value = ns.map M.number := by
  induction es generalizing ns with
  | nil =>
    cases h
    rfl
  | cons e es ih =>
    simp only [mapM_cons, Option.bind_eq_bind, Option.bind_eq_some_iff, Option.pure_def,
      Option.some.injEq] at h
    obtain ⟨n, hn, ns, hns, rfl⟩ := h
    rw [map_cons, map_cons, M.value_of_number? hn, ih hns]

lemma value_of_computes {r : Value} (h : n.Computes r) (hargs : (n.child 2).is .args) :
    M.value n.tree = M.result r := by
  obtain ⟨htag, hblock, op, a, args, hop, ha, hmap, hr⟩ := h
  have hexact : result? op a args = some r := by
    rw [computed?] at hr
    split at hr
    · cases hr
    · exact hr
  rw [M.value_call n op a args r htag hblock hop (M.value_of_number? ha) hargs
    (M.map_value_of_mapM hmap) hexact]
  cases r <;> rfl

lemma value_fold (h : e.Everywhere Node.HasArgs) : M.value (fold e) = M.value e := by
  induction e using induction_on_nodes with
  | leaf e he => rw [fold_of_node? he]
  | node n ih =>
    obtain ⟨hn, hchi⟩ := everywhere_node.mp h
    have hmap : n.foldedChildren.children.map M.value = n.children.map M.value := by
      rw [Node.foldedChildren, map_map]
      exact map_congr_left fun c hc => ih c hc (hchi c hc)
    have hv : M.value n.foldedChildren.tree = M.value n.tree := M.value_node hmap
    obtain ⟨r, hr, hfold⟩ | ⟨-, hfold⟩ := fold_tree n
    · have hargs : (n.foldedChildren.child 2).is .args := by
        rw [Node.child_foldedChildren]
        exact is_fold (by decide) (hn hr.1)
      rw [hfold, M.value_tree, ← hv, M.value_of_computes hr hargs]
    · rw [hfold, hv]

end Reading

/-- Folding keeps the value of a tree in every reading, and folding again changes nothing. No call
that could be computed is left. A leaf stays as it is; a node has its children folded, or the literal of
a number or a truth value stands in its place. -/
theorem fold_preserves {V : Type u} (M : Reading V) (h : e.Everywhere Node.HasArgs) :
    M.value (fold e) = M.value e ∧ fold (fold e) = fold e ∧
      (fold e).Everywhere (fun n => ∀ r, ¬n.Computes r) ∧
      (∀ leaf : Tree, leaf.node? = none → fold leaf = leaf) ∧
      ∀ n : Node, fold n.tree = n.rebuild (n.children.map fold) ∨
        ∃ r : Value, fold n.tree = r.tree := by
  refine ⟨M.value_fold h, fold_eq_self (everywhere_fold e), everywhere_fold e,
    fun leaf hleaf => fold_of_node? hleaf, fun n => ?_⟩
  obtain ⟨r, -, hfold⟩ | ⟨-, hfold⟩ := fold_tree n
  · exact .inr ⟨r, hfold⟩
  · exact .inl hfold

/-! ### A reading -/

/-- What trees evaluate to as far as integers go. -/
inductive Meaning where
  | number (n : Int)
  | name (s : String)
  | args (ms : List Meaning)
  | absent
  | other

namespace Meaning

def number? : Meaning → Option Int
  | .number n => some n
  | _ => none

def call (ms : List Meaning) : Meaning := match ms[0]?, ms[1]?, ms[2]?, ms[3]?.getD .absent with
  | some (.number a), some (.name op), some (.args operands), .absent =>
    match (operands.mapM number?).bind (result? op a) with
    | some (.number n) => .number n
    | some (.truth b) => .name (if b then "true" else "false")
    | none => .other
  | _, _, _, _ => .other

def node : Tag → List Meaning → Meaning
  | .args, ms => .args ms
  | .send, ms => call ms
  | _, _ => .other

mutual

def of : Tree → Meaning
  | .int n => .number n
  | .big s => (Numeral.number? s).elim .other .number
  | .name s => .name s
  | .absent => .absent
  | .node tag _ _ children => node tag (ofAll children)
  | _ => .other

def ofAll : List Tree → List Meaning
  | [] => []
  | e :: es => of e :: ofAll es

end

lemma ofAll_eq_map (es : List Tree) : ofAll es = es.map of := by
  induction es with
  | nil => rfl
  | cons e es ih => rw [ofAll, ih, map_cons]

lemma getElem?_map_of {i : Nat} {m : Meaning} (h : of (n.child i) = m) (hm : m ≠ .absent) :
    (n.children.map of)[i]? = some m := by
  rw [Node.child] at h
  rw [getElem?_map]
  cases hi : n.children[i]? with
  | none =>
    rw [hi] at h
    exact absurd h.symm hm
  | some e =>
    rw [hi] at h
    exact congrArg some h

lemma getD_getElem?_map_of {i : Nat} (h : (n.child i).isAbsent) :
    (n.children.map of)[i]?.getD .absent = .absent := by
  rw [Node.child] at h
  rw [getElem?_map]
  cases hi : n.children[i]? with
  | none => rfl
  | some e =>
    rw [hi] at h
    cases e <;> first | rfl | cases h

lemma mapM_number? (ns : List Int) : (ns.map Meaning.number).mapM number? = some ns := by
  induction ns with
  | nil => rfl
  | cons n ns ih =>
    rw [map_cons, mapM_cons, ih]
    rfl

def reading : Reading Meaning where
  value := of
  number := .number
  value_node h := by rw [of, of, ofAll_eq_map, ofAll_eq_map, h]
  value_int n := rfl
  value_big s n h := by rw [of, h]; rfl
  value_call n op a args r htag hblock hop ha hargs hmap hexact := by
    have hchild : of (n.child 2) = .args (args.map .number) := by
      rw [← hmap]
      cases hn : n.child 2 with
      | node tag span id children =>
        have htag : tag = .args := by simpa [is, hn] using hargs
        rw [of, htag, ofAll_eq_map]
        rfl
      | _ => simp [hn, is] at hargs
    rw [Node.tree, of, htag, ofAll_eq_map, node, call, getElem?_map_of ha (by simp),
      getElem?_map_of (by rw [hop, of]) (by simp), getElem?_map_of hchild (by simp),
      getD_getElem?_map_of hblock]
    simp only [mapM_number?, Option.bind_some, hexact]
    cases r <;> rfl

end Meaning

/-- A sum of two words that is no word any more. -/
theorem fold_preserves_sum : let args : Node := ⟨.args, .zero, 1, [.int (2 ^ 62)]⟩
    let sum : Node := ⟨.send, .zero, 0, [.int (2 ^ 62), .name "+", args.tree, .absent]⟩
    sum.tree.Everywhere Node.HasArgs ∧ Meaning.of (fold sum.tree) = Meaning.of sum.tree ∧
      fold (fold sum.tree) = fold sum.tree := by
  intro args sum
  have hargs : args.tree.Everywhere Node.HasArgs :=
    everywhere_node.mpr ⟨by simp [args, Node.HasArgs], by simp [args]⟩
  have hsum : sum.tree.Everywhere Node.HasArgs :=
    everywhere_node.mpr ⟨fun _ => rfl, by simp [sum, hargs]⟩
  have hfold := fold_preserves Meaning.reading hsum
  exact ⟨hsum, hfold.1, hfold.2.1⟩

end Garnet
