import Garnet.Proofs.Reading.Source
import Mathlib

/-!
# Faults of expressions

Behind each operand of an expression there is one value more than the operators on the stack take operands,
less one for each: so every operator finds its operands, and in the end one value is left. What reading fails
with is said by an instance for each rule of the grammar, so that a rule follows from its parts. The main
statement is `operators_find_operands`.
-/

namespace Garnet

open List Parse Operator

/-- How many operands the operators take, less one for each. -/
def ExprStack.owed (ops : List PlacedOperator) : Nat := (ops.map (·.op.arity - 1)).sum

/-- The stacks that come about while an expression is read, whatever its tokens and operands are: before
an operand, or behind one. -/
inductive ExprStack.Comes : Bool → ExprStack → Prop
  | start : Comes false {}
  | unary {stack op span} (h : Comes false stack) (hop : op ∈ unaryTable) :
    Comes false ⟨stack.values, ⟨op, span⟩ :: stack.ops⟩
  | operand {stack} (h : Comes false stack) (value : Tree) : Comes true ⟨value :: stack.values, stack.ops⟩
  | reduce {values top ops values' s s'} (h : Comes true ⟨values, top :: ops⟩)
    (hreduce : Parse.reduce values top s = .ok values' s') : Comes true ⟨values', ops⟩
  | target {value values ops} (h : Comes true ⟨value :: values, ops⟩) (place : Tree) :
    Comes true ⟨place :: values, ops⟩
  | binary {stack op span} (h : Comes true stack) (hop : op ∈ binaryTable)
    (hkind : op.kind ≠ .ternaryElse) : Comes false ⟨stack.values, ⟨op, span⟩ :: stack.ops⟩
  | colon {values top ops op} (h : Comes true ⟨values, top :: ops⟩) (htop : top.op.kind = .ternary)
    (hop : op ∈ binaryTable) (hkind : op.kind = .ternaryElse) :
    Comes false ⟨values, ⟨op, top.span⟩ :: ops⟩

open ExprStack

/-- The causes that have nothing to do with the stacks of an expression. -/
def ParseCause.isPlain : ParseCause → Bool
  | .missingValue | .missingColon | .unreduced | .notBinary _ => false
  | _ => true

/-- A fault that shows no stacks, an operator without an operand, or a condition without its colon. -/
inductive ParseError.Explained : ParseError → Prop
  | plain {cause span} (h : cause.isPlain) : Explained ⟨cause, span, none⟩
  | operand {values top ops span} (h : Comes false ⟨values, top :: ops⟩) :
    Explained ⟨.missingValue, span, some (dump top.op values none)⟩
  | colon {values top ops span} (h : Comes true ⟨values, top :: ops⟩) (htop : top.op.kind = .ternary) :
    Explained ⟨.missingColon, span, some (dump top.op values values.head?)⟩

/-- All faults of reading satisfy `P`. -/
class FaultsIn {α : Type} (P : ParseError → Prop) (m : Parse α) : Prop where
  fault : ∀ ⦃s e s'⦄, m s = .error e s' → P e

abbrev Explains {α : Type} (m : Parse α) : Prop := FaultsIn ParseError.Explained m

section

variable {α β : Type} {P : ParseError → Prop} {m : Parse α} {f : α → Parse β} {span : Span} {cs : List Tree}

lemma faultsIn_of_ok (h : ∀ s, ∃ a s', m s = .ok a s') : FaultsIn P m := by
  refine ⟨fun s e s' he => ?_⟩
  obtain ⟨a, t, ha⟩ := h s
  cases ha.symm.trans he

lemma FaultsIn.bindOk (hm : FaultsIn P m) (hf : ∀ ⦃s a s'⦄, m s = .ok a s' → FaultsIn P (f a)) :
    FaultsIn P (m >>= f) :=
  ⟨fun _ _ _ h => (bind_eq_error.mp h).elim (hm.fault ·) fun ⟨_, _, ha, h⟩ => (hf ha).fault h⟩

lemma FaultsIn.bind (hm : FaultsIn P m) (hf : ∀ a, FaultsIn P (f a)) : FaultsIn P (m >>= f) :=
  hm.bindOk fun _ a _ _ => hf a

instance [FaultsIn P m] [∀ a, FaultsIn P (f a)] : FaultsIn P (m >>= f) := .bind ‹_› ‹_›

instance {c : Prop} [Decidable c] {p q : Parse α} [FaultsIn P p] [FaultsIn P q] :
    FaultsIn P (if c then p else q) := by
  split <;> infer_instance

instance {a : α} : FaultsIn P (pure a : Parse α) := faultsIn_of_ok fun _ => ⟨_, _, rfl⟩
instance : FaultsIn P (get : Parse ParserState) := faultsIn_of_ok fun _ => ⟨_, _, rfl⟩
instance {s : ParserState} : FaultsIn P (set s : Parse PUnit) := faultsIn_of_ok fun _ => ⟨_, _, rfl⟩
instance {g} : FaultsIn P (modify g : Parse PUnit) := faultsIn_of_ok fun _ => ⟨_, _, rfl⟩
instance {name} : FaultsIn P (declare name) := faultsIn_of_ok fun _ => ⟨_, _, rfl⟩
instance {token} : FaultsIn P (pushBack token) := faultsIn_of_ok fun _ => ⟨_, _, rfl⟩
instance {tag} : FaultsIn P (Build.node tag span cs : Parse Tree) := faultsIn_of_ok fun _ => ⟨_, _, rfl⟩
instance : FaultsIn P (Build.args span cs : Parse Tree) := faultsIn_of_ok fun _ => ⟨_, _, rfl⟩
instance {r name} : FaultsIn P (Build.send span r name cs : Parse Tree) := faultsIn_of_ok fun _ => ⟨_, _, rfl⟩

instance {place value} : FaultsIn P (Build.assign place value span : Parse Tree) := by
  fun_induction Build.assign (m := Parse) place value span <;> infer_instance

instance {op e} : FaultsIn P (unary op span e) := by
  unfold Parse.unary negation
  repeat' first | infer_instance | dsimp only | split

lemma explains_fail {cause : ParseCause} (h : cause.isPlain) (span : Span) :
    Explains (fail cause span : Parse α) := by
  refine ⟨fun s e s' he => ?_⟩
  cases he
  exact .plain h

instance {token wanted} : Explains (unexpected token wanted : Parse α) := explains_fail rfl _
instance : Explains (fail .tooDeep span : Parse α) := explains_fail rfl span

instance : Explains next := by
  refine ⟨fun s e s' h => ?_⟩
  rw [Parse.next] at h
  split at h <;> cases h
  exact .plain rfl

instance : Explains peek := by
  refine ⟨fun s e s' h => ?_⟩
  rw [peek] at h
  split at h <;> cases h
  exact .plain rfl

/-! ### Operators and their operands -/

variable {values : List Tree} {top : PlacedOperator} {ops : List PlacedOperator} {stack : ExprStack}
  {behind : Bool}

lemma arity_of_mem : (∀ op ∈ unaryTable, op.arity = 1 ∧ op.kind ≠ .ternary) ∧
    ∀ op ∈ binaryTable, op.arity = (if op.kind = .ternaryElse then 3 else 2) ∧
      (op.kind ∈ [.method, .and, .or, .range, .exclusiveRange, .ternary, .ternaryElse] ∨ op.isAssignment) := by
  decide

lemma ExprStack.Comes.balanced (h : Comes behind stack) : stack.values.length = behind.toNat + owed stack.ops ∧
    ∀ o ∈ stack.ops, o.op ∈ unaryTable ∨ o.op ∈ binaryTable := by
  obtain ⟨hu, hb⟩ := arity_of_mem
  induction h with
  | start => exact ⟨rfl, nofun⟩
  | unary _ hop ih => simp_all [owed]
  | operand _ _ ih | binary _ hop hkind ih => simp_all [owed, Nat.add_comm]
  | reduce _ hreduce ih =>
    have hl := (Rules.spent_by_reduce _ _ trivial hreduce).2
    simp_all [owed]
    omega
  | target _ _ ih => simp_all [owed]
  | @colon values top ops op _ htop hop hkind ih =>
    have htwo : top.op.arity = 2 := by
      rcases ih.2 top mem_cons_self with h | h
      · exact absurd htop (hu _ h).2
      · rw [(hb _ h).1, htop]
        rfl
    simp_all [owed]
    omega

/-- Behind an operand an operator takes its operands without a fault, unless it is an open condition. -/
lemma faultsIn_reduce (h : Comes true ⟨values, top :: ops⟩) (htop : top.op.kind ≠ .ternary) :
    FaultsIn P (reduce values top) := by
  obtain ⟨hl, hlis⟩ := h.balanced
  simp only [owed, map_cons, sum_cons, Bool.toNat_true] at hl
  have ha : top.op.arity = 1 ∨ top.op.arity = 2 ∧
      (top.op.kind ∈ [.method, .and, .or, .range, .exclusiveRange] ∨ top.op.isAssignment) ∨ top.op.arity = 3 := by
    rcases hlis top mem_cons_self with hmem | hmem
    · exact .inl (arity_of_mem.1 _ hmem).1
    · have := arity_of_mem.2 _ hmem
      grind
  have hb (htwo : top.op.arity = 2) left right : FaultsIn P (binary top.op top.span left right) := by
    unfold binary
    dsimp only
    split
    iterate 7 infer_instance
    simp_all [isAssignment]
  change FaultsIn P (if (top.op.kind == .ternary) = true then _ else _)
  rw [if_neg (by simpa using htop)]
  split
  · infer_instance
  · rename_i htwo
    have := hb htwo
    infer_instance
  · infer_instance
  · -- there are as many values as the operator takes
    rename_i values _ _ hone htwo ht
    rcases values with _ | ⟨a, _ | ⟨b, _ | ⟨c, rest⟩⟩⟩
    all_goals grind

lemma explains_reduce (h : Comes true ⟨values, top :: ops⟩) : Explains (reduce values top) := by
  by_cases htop : top.op.kind = .ternary
  · refine ⟨fun s e s' he => ?_⟩
    change (if (top.op.kind == .ternary) = true then _ else _ : Parse _) s = _ at he
    rw [if_pos (by simpa using htop)] at he
    cases he
    exact .colon h htop
  · exact faultsIn_reduce h htop

lemma comes_reduceWhile {p : Operator → Bool} (h : Comes true ⟨values, ops⟩) :
    Explains (reduceWhile p values ops) ∧ ∀ ⦃s stack s'⦄, reduceWhile p values ops s = .ok stack s' →
      Comes true stack ∧ stack.ops = ops.dropWhile (p ·.op) := by
  induction ops generalizing values with
  | nil =>
    refine ⟨inferInstanceAs (Explains (pure _)), fun s stack s' he => ?_⟩
    cases he
    exact ⟨h, rfl⟩
  | cons top ops ih =>
    unfold reduceWhile
    split
    · rename_i hp
      refine ⟨(explains_reduce h).bindOk fun s values' s' hs => (ih (h.reduce hs)).1, fun s stack s' he => ?_⟩
      obtain ⟨values', t, hs, he⟩ := bind_eq_ok.mp he
      simp only [dropWhile_cons, hp, if_true]
      exact (ih (h.reduce hs)).2 he
    · rename_i hp
      refine ⟨inferInstance, fun s stack s' he => ?_⟩
      cases he
      simp only [dropWhile_cons, hp]
      exact ⟨h, rfl⟩

lemma explains_finish (h : Comes true stack) : Explains (finish stack) := by
  refine (comes_reduceWhile h).1.bindOk fun s rest s' hs => ?_
  obtain ⟨hr, hops⟩ := (comes_reduceWhile h).2 hs
  have hone : rest.values.length = 1 := by
    rw [hr.balanced.1, hops, dropWhile_eq_nil_iff.mpr fun _ _ => rfl]
    rfl
  obtain ⟨e, he⟩ := length_eq_one_iff.mp hone
  rw [he]
  infer_instance

lemma explains_missingOperand (h : Comes false stack) : Explains (missingOperand stack) := by
  refine .bind inferInstance fun token => ?_
  split
  · rename_i top ops hops
    refine ⟨fun s e s' he => ?_⟩
    cases he
    obtain ⟨_, _⟩ := stack
    subst hops
    exact .operand h
  · infer_instance

end

/-! ### The rules of the grammar -/

namespace Rules

/-- The two rules that the others are built on have explained faults. -/
class Explained (r : Rules) : Prop where
  expr ctx : Explains (r.expr ctx)
  statements stop : Explains (r.statements stop)

attribute [instance] Explained.expr Explained.statements

variable {r : Rules} {fuel : Nat}

instance {stmts span} : Explains (body stmts span) := by
  unfold body
  repeat' first | infer_instance | refine .bind ?_ fun _ => ?_ | split

instance {kinds} : Explains (skipKinds kinds fuel) := by
  induction fuel <;> unfold skipKinds
  all_goals repeat' first | infer_instance | refine .bind ?_ fun _ => ?_

instance {α} {item : Parse α} [Explains item] : Explains (commaSeparated item fuel) := by
  induction fuel <;> unfold commaSeparated
  all_goals repeat' first | infer_instance | refine .bind ?_ fun _ => ?_

instance {e} : Explains (target e) := by
  induction e using target.induct with
  | case1 e ih =>
    rw [target.eq_def]
    refine .bind inferInstance fun s => ?_
    split
    all_goals
      repeat' first
        | infer_instance | exact explains_fail rfl _ | exact ih | refine .bind ?_ fun _ => ?_ | split | dsimp only

instance : Explains r.skipNewlines := inferInstanceAs (Explains (skipKinds _ _))

instance : Explains r.skipTerms := inferInstanceAs (Explains (skipKinds _ _))

variable [r.Explained]

instance {ctx} : Explains (r.exprs ctx) := inferInstanceAs (Explains (commaSeparated _ _))

instance {inBlock} : Explains (r.parameter inBlock fuel) := by
  induction fuel <;> unfold parameter
  all_goals
    repeat' first | infer_instance | exact explains_fail rfl _ | refine .bind ?_ fun _ => ?_ | split | dsimp only

instance {stop multiline} : Explains (r.parametersFrom stop multiline fuel) := by
  induction fuel <;> unfold parametersFrom
  all_goals repeat' first | infer_instance | refine .bind ?_ fun _ => ?_ | split

instance : Explains (blockLocals fuel) := by
  induction fuel <;> unfold blockLocals
  all_goals repeat' first | infer_instance | refine .bind ?_ fun _ => ?_ | split

instance : Explains (r.blockParametersFrom fuel) := by
  induction fuel <;> unfold blockParametersFrom
  all_goals repeat' first | infer_instance | refine .bind ?_ fun _ => ?_ | split

instance {acc} : Explains (r.clausesFrom fuel acc) := by
  induction fuel generalizing acc <;> unfold clausesFrom
  all_goals repeat' first | infer_instance | refine .bind ?_ fun _ => ?_ | split | dsimp only

instance {negated start} : Explains (r.conditional negated fuel start) := by
  induction fuel generalizing negated start <;> unfold conditional
  all_goals repeat' first | infer_instance | refine .bind ?_ fun _ => ?_ | split

instance : Explains (r.armsFrom fuel) := by
  induction fuel <;> unfold armsFrom
  all_goals repeat' first | infer_instance | exact explains_fail rfl _ | refine .bind ?_ fun _ => ?_ | split

instance : Explains (r.nestedTarget fuel) := by
  induction fuel <;> unfold nestedTarget
  all_goals repeat' first | infer_instance | refine .bind ?_ fun _ => ?_ | split

instance : Explains (r.targetsFrom fuel) := by
  induction fuel <;> unfold targetsFrom
  all_goals repeat' first | infer_instance | refine .bind ?_ fun _ => ?_ | split

instance {word mark span stmt operand} : Explains (modified word mark span stmt operand) := by
  unfold modified
  repeat' first | infer_instance | refine .bind ?_ fun _ => ?_ | split

instance {start stmt} : Explains (r.modifiersFrom start fuel stmt) := by
  induction fuel generalizing stmt <;> unfold modifiersFrom
  all_goals repeat' first | infer_instance | refine .bind ?_ fun _ => ?_ | split

instance {stop} : Explains (r.statementsFrom stop fuel) := by
  induction fuel <;> unfold statementsFrom
  all_goals repeat' first | infer_instance | refine .bind ?_ fun _ => ?_ | split

instance {token} : Explains (methodName token) := by
  unfold methodName
  repeat' first | infer_instance | refine .bind ?_ fun _ => ?_ | split

instance {token} : Explains (receiver? token) := by
  unfold receiver?
  repeat' first | infer_instance | refine .bind ?_ fun _ => ?_ | split

instance {start path} : Explains (pathFrom start fuel path) := by
  induction fuel generalizing path <;> unfold pathFrom
  all_goals repeat' first | infer_instance | refine .bind ?_ fun _ => ?_ | split

instance {ctx parens acc} : Explains (r.argumentsFrom ctx parens fuel acc) := by
  induction fuel generalizing acc <;> unfold argumentsFrom
  all_goals repeat' first | infer_instance | refine .bind ?_ fun _ => ?_ | split

instance : Explains (r.itemsFrom fuel) := by
  induction fuel <;> unfold itemsFrom
  all_goals repeat' first | infer_instance | refine .bind ?_ fun _ => ?_ | split

instance : Explains (r.entriesFrom fuel) := by
  induction fuel <;> unfold entriesFrom
  all_goals repeat' first | infer_instance | refine .bind ?_ fun _ => ?_ | split

instance {call block} : Explains (attachBlock call block) := by
  unfold attachBlock
  repeat' first | infer_instance | exact explains_fail rfl _ | refine .bind ?_ fun _ => ?_ | split

instance {value} : Explains (closeSafeChain value) := by
  unfold closeSafeChain
  repeat' first | infer_instance | refine .bind ?_ fun _ => ?_ | split

instance {start ctx value} : Explains (r.postfixFrom start ctx fuel value) := by
  induction fuel generalizing value <;> unfold postfixFrom
  all_goals repeat' first | infer_instance | refine .bind ?_ fun _ => ?_ | split | dsimp only

instance {parts span} : Explains (r.interpolation parts span) := by
  refine .bind ?_ inferInstance
  induction parts with
  | nil => exact inferInstanceAs (Explains (pure _))
  | cons part parts ih =>
    rw [mapM_cons]
    refine .bind ?_ inferInstance
    split
    all_goals repeat' first | infer_instance | refine .bind ?_ fun _ => ?_

instance {word span ctx} : Explains (r.keywordValue word span ctx) := by
  unfold keywordValue
  repeat' first | infer_instance | exact explains_fail rfl _ | refine .bind ?_ fun _ => ?_ | split

instance {token ctx} : Explains (r.primary token ctx) := by
  unfold primary
  repeat' first | infer_instance | refine .bind ?_ fun _ => ?_ | split

instance {token ctx} : Explains (r.value? token ctx) := by
  unfold value?
  repeat' first | infer_instance | refine .bind ?_ fun _ => ?_ | split

lemma explains_exprFrom (ctx : ExprContext) {stack : ExprStack} (h : Comes false stack) :
    Explains (r.exprFrom ctx fuel stack) := by
  induction fuel generalizing stack with
  | zero =>
    unfold exprFrom
    infer_instance
  | succ fuel ih =>
    refine .bind inferInstance fun token => ?_
    split
    · rename_i op hop
      exact ih (h.unary (mem_unaryTable hop))
    · refine .bind inferInstance fun value? => ?_
      split
      · exact explains_missingOperand h
      · rename_i value
        have hv := h.operand value
        refine .bind inferInstance fun token => ?_
        split
        · exact .bind inferInstance fun _ => explains_finish hv
        · rename_i op hop
          have hop := mem_binaryTable hop
          split
          · rename_i hkind
            split
            · rename_i hany
              refine (comes_reduceWhile hv).1.bindOk fun s stack' s' hs => ?_
              obtain ⟨hsta, hops⟩ := (comes_reduceWhile hv).2 hs
              obtain ⟨values, _ | ⟨top, ops⟩⟩ := stack'
              · obtain ⟨o, ho, ht⟩ := any_eq_true.mp hany
                have hoth := dropWhile_eq_nil_iff.mp hops.symm o ho
                simp_all
              · have htop := head?_dropWhile_not (·.op.kind != .ternary) stack.ops
                rw [← hops] at htop
                exact ih (.colon hsta (by simpa using htop) hop (by simpa using hkind))
            · exact .bind inferInstance fun _ => explains_finish hv
          · rename_i hkind
            have hkind : op.kind ≠ .ternaryElse := by simpa using hkind
            split
            · exact .bind inferInstance fun place => ih ((hv.target place).binary hop hkind)
            · refine (comes_reduceWhile hv).1.bindOk fun s stack' s' hs => ?_
              exact ih (((comes_reduceWhile hv).2 hs).1.binary hop hkind)

end Rules

instance rules_explained (fuel : Nat) : (rules fuel).Explained := by
  induction fuel with
  | zero =>
    have hdeep {α} : Explains (do fail .tooDeep (← get).lastSpan : Parse α) := inferInstance
    exact ⟨fun _ => hdeep, fun _ => hdeep⟩
  | succ fuel ih =>
    refine ⟨fun ctx => Rules.explains_exprFrom ctx .start, fun stop => ?_⟩
    exact inferInstanceAs (Explains ((rules fuel).statementsFrom stop fuel))

/-- Behind an operand there is one value more than the operators take operands, less one for each, and all
operators but an open condition find theirs. So a text is read, or the fault has nothing to do with the stacks, or
an operand is missing, or a colon. -/
theorem operators_find_operands :
    (∀ stack, Comes true stack → stack.values.length = 1 + owed stack.ops ∧
      ∀ top ops, stack.ops = top :: ops → top.op.kind ≠ .ternary →
        ∀ s, ∃ values s', reduce stack.values top s = .ok values s') ∧
    ∀ source file e, parse source file = .error e → e.Explained := by
  refine ⟨fun stack h => ⟨h.balanced.1, fun top ops hops htop s => ?_⟩, fun source file e he => ?_⟩
  · obtain ⟨values, ops⟩ := stack
    subst hops
    cases hs : reduce values top s with
    | ok values' s' => exact ⟨values', s', rfl⟩
    | error e s' => exact ((faultsIn_reduce (P := fun _ => False) h htop).fault hs).elim
  · have hprogram : Explains program := by
      unfold program
      infer_instance
    unfold parse at he
    split at he
    · cases he
    · rename_i hrun
      cases he
      exact hprogram.fault hrun

theorem operators_find_operands_unfinished :
    (∃ e, parse "1 +" = .error e ∧ e.cause = .missingValue ∧ e.Explained) ∧
    ∃ op ∈ unaryTable, ∃ values s', reduce [.str []] ⟨op, default⟩ (.ofString "" "-") = .ok values s' := by
  refine ⟨?_, ?_⟩
  · have hcause : (parse "1 +").mapError ParseError.cause = .error .missingValue := by cbv
    cases h : parse "1 +" with
    | ok p =>
      rw [h] at hcause
      cases hcause
    | error e =>
      rw [h] at hcause
      exact ⟨e, rfl, Except.error.inj hcause, operators_find_operands.2 _ _ _ h⟩
  · have hmem : unaryTable.head (by decide) ∈ unaryTable := head_mem _
    have hcomes : Comes true ⟨[.str []], [⟨_, default⟩]⟩ := (Comes.start.unary hmem).operand _
    exact ⟨_, hmem, (operators_find_operands.1 _ hcomes).2 _ _ rfl (by decide) _⟩

end Garnet
