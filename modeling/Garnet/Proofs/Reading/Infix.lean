import Garnet.Proofs.Token.Infix
import Garnet.Reading.Unit

/-!
# Reading formulas

Integer literals with operators between them are read as the one tree that keeps their order and follows the
priorities (`parse_formula`).

* Reading is followed along the kinds of the tokens to come: by `Parse.Achieves` a computation ends without a
  fault, gives something, and leaves some tokens. One token at a time can be handed back (`Lexer.FeedsClear`).
* The values and operators on the stack are the frames of the tree under construction (`Parse.Stacked`), and a
  reduction closes a frame. So an expression is read as `OperatorTree.build` builds it.
* The grouping says nothing about spans and identities; `Represents` leaves them open.
-/

namespace Garnet

variable {v : IntLiteral} {fuel : Nat}

open OperatorTree IntLiteral TokenKind

/-! ### Tokens that come -/

/-- The next tokens are of these kinds, and none of them was handed back. -/
def Lexer.FeedsClear (ks : List TokenKind) (l : Lexer) : Prop := l.pushed = none ∧ l.Feeds ks

lemma Lexer.FeedsClear.pushBack {ks : List TokenKind} {l : Lexer} (h : l.FeedsClear ks) (t : Token) :
    (l.pushBack t).Feeds (t.kind :: ks) := by
  obtain ⟨hp, hf⟩ := h
  have hb : { l.pushBack t with pushed := none } = l := by rw [Lexer.pushBack, ← hp]
  exact ⟨t, l, congrArg (EStateM.Result.ok t) hb, rfl, hp, hf⟩

namespace Parse

variable {α β : Type} {P P' P'' : Lexer → Prop} {φ : α → Prop} {ψ : β → Prop} {k : TokenKind}
  {ks : List TokenKind} {m : Parse α}

/-- A run of `m` with a lexer that satisfies `P` ends without a fault, with a value that satisfies `φ` and a
lexer that satisfies `P'`. -/
def Achieves (P : Lexer → Prop) (m : Parse α) (φ : α → Prop) (P' : Lexer → Prop) : Prop :=
  ∀ s, P s.lexer → ∃ a s', m s = .ok a s' ∧ φ a ∧ P' s'.lexer

lemma Achieves.bind {f : α → Parse β} (hm : Achieves P m φ P')
    (hf : ∀ a, φ a → Achieves P' (f a) ψ P'') : Achieves P (m >>= f) ψ P'' := by
  intro s hs
  obtain ⟨a, s', hm, ha, hs'⟩ := hm s hs
  obtain ⟨b, s'', hf, hb, hs''⟩ := hf a ha s' hs'
  exact ⟨b, s'', bind_eq_ok.mpr ⟨a, s', hm, hf⟩, hb, hs''⟩

lemma Achieves.mono {φ' : α → Prop} (hm : Achieves P m φ P') (h : ∀ a, φ a → φ' a) :
    Achieves P m φ' P' := by
  intro s hs
  obtain ⟨a, s', hm, ha, hs'⟩ := hm s hs
  exact ⟨a, s', hm, h a ha, hs'⟩

lemma Achieves.weaken (hm : Achieves P m φ P') (h : ∀ l, P'' l → P l) : Achieves P'' m φ P' :=
  fun s hs => hm s (h _ hs)

lemma Achieves.pure {a : α} (h : φ a) : Achieves P (pure a) φ P := fun s hs => ⟨a, s, rfl, h, hs⟩

lemma achieves_next (hk : ∀ name, k ≠ .ident name) :
    Achieves (Lexer.Feeds (k :: ks)) next (·.kind = k) (Lexer.FeedsClear ks) := by
  rintro s ⟨t, l, hn, hkind, hp, hf⟩
  refine ⟨t, { s with lexer := l, lastSpan := t.span }, ?_, hkind, hp, hf⟩
  rw [next, hn]
  dsimp only
  split
  · exact absurd (hkind.symm.trans ‹_›) (hk _)
  · rfl

lemma achieves_peek : Achieves (Lexer.Feeds (k :: ks)) peek (·.kind = k) (Lexer.Feeds (k :: ks)) := by
  rintro s ⟨t, l, hn, hkind, hp, hf⟩
  have hpe : Lexer.peek s.lexer = .ok t (l.pushBack t) := bind_eq_ok.mpr ⟨t, l, hn, rfl⟩
  have hb : (l.pushBack t).Feeds (t.kind :: ks) := Lexer.FeedsClear.pushBack ⟨hp, hf⟩ t
  refine ⟨t, { s with lexer := l.pushBack t }, ?_, hkind, hkind ▸ hb⟩
  rw [peek, hpe]

lemma achieves_peekKind : Achieves (Lexer.Feeds (k :: ks)) peekKind (· = k) (Lexer.Feeds (k :: ks)) :=
  achieves_peek.bind fun _ h => .pure h

lemma achieves_atPunct (p : String) :
    Achieves (Lexer.Feeds (k :: ks)) (atPunct p) (· = (k == .punct p)) (Lexer.Feeds (k :: ks)) :=
  achieves_peekKind.bind fun _ h => .pure (h ▸ rfl)

lemma achieves_pushBack {t : Token} (h : t.kind = k) :
    Achieves (Lexer.FeedsClear ks) (pushBack t) (fun _ => True) (Lexer.Feeds (k :: ks)) :=
  fun s hs => ⟨(), { s with lexer := s.lexer.pushBack t }, rfl, trivial, h ▸ hs.pushBack t⟩

lemma achieves_node (tag : Tag) (span : Span) (children : List Tree) :
    Achieves P (Build.node tag span children) (fun e => ∃ id, e = .node tag span id children) P :=
  fun s hs => ⟨_, { s with nextId := s.nextId + 1 }, rfl, ⟨_, rfl⟩, hs⟩

end Parse

/-! ### Trees of formulas -/

def IntLiteral.tree (v : IntLiteral) : Tree :=
  if Numeral.fitsWord v.value then .int v.value else .big (Numeral.decimal v.value)

/-- The tag of the node that an operator builds right from its operands. -/
def OpKind.tag? : OpKind → Option Tag
  | .and => some .and
  | .or => some .or
  | .range => some .range
  | .exclusiveRange => some .exclusiveRange
  | _ => none

/-- A tree groups operands as the operator tree does, whatever spans and identities its nodes have. An
operator is the node of its own tag, or else a call of the method with its name on the left operand. -/
inductive Represents : OperatorTree IntLiteral → Tree → Prop
  | leaf (v : IntLiteral) : Represents (.leaf v) v.tree
  | node {o : Connective} {l r e e' tag} (span : Span)
      (id : Nat) (htag : o.1.kind.tag? = some tag) (hl : Represents l e) (hr : Represents r e') :
      Represents (.branch o l r) (.node tag span id [e, e'])
  | call {o : Connective} {l r e e'} (span span' : Span) (id id' : Nat)
      (hkind : o.1.kind = .method) (hl : Represents l e) (hr : Represents r e') :
      Represents (.branch o l r)
        (.node .send span id [e, .name o.1.symbol, .node .args span' id' [e'], .absent])

namespace Parse

variable {P : Lexer → Prop} {o : Connective} {l r t : OperatorTree IntLiteral} {e e' : Tree}
  {fs : Frames IntLiteral} {values : List Tree} {ops : List PlacedOperator}

lemma achieves_binary (hl : Represents l e) (hr : Represents r e') (mark : Span) :
    Achieves P (binary o.1 mark e e') (Represents (.branch o l r)) P := by
  have hall : ∀ o ∈ Operator.binaryTable, o.isConnective →
      o.kind ∈ [OpKind.method, .and, .or, .range, .exclusiveRange] := by decide
  have hn {tag} span (htag : o.1.kind.tag? = some tag) :
      Achieves P (Build.node tag span [e, e']) (Represents (.branch o l r)) P := by
    refine (achieves_node tag span [e, e']).mono ?_
    rintro _ ⟨id, rfl⟩
    exact .node span id htag hl hr
  have hkind := hall o.1 o.2.1 o.2.2
  simp only [List.mem_cons, List.not_mem_nil, or_false] at hkind
  rcases hkind with hkind | hkind | hkind | hkind | hkind <;> simp only [binary, hkind]
  · refine (achieves_node .args _ [e']).bind ?_
    rintro _ ⟨id', rfl⟩
    refine (achieves_node .send _ _).mono ?_
    rintro _ ⟨id, rfl⟩
    exact .call _ _ id id' hkind hl hr
  all_goals exact hn _ (hkind ▸ rfl)

lemma achieves_reduce (hl : Represents l e) (hr : Represents r e') {top : PlacedOperator}
    (htop : top.op = o.1) (values : List Tree) :
    Achieves P (reduce (e' :: e :: values) top)
      (fun vs => ∃ e'', vs = e'' :: values ∧ Represents (.branch o l r) e'') P := by
  have hall : ∀ o ∈ Operator.binaryTable, o.isConnective → (o.kind == .ternary) = false ∧ o.arity = 2 := by
    decide
  obtain ⟨hkind, ha⟩ := hall o.1 o.2.1 o.2.2
  simp only [reduce, htop, hkind, ha]
  refine (achieves_binary hl hr top.span).bind fun e'' he'' => ?_
  exact .pure ⟨e'', rfl, he''⟩

/-- The values and operators on the stack are those of the frames. -/
inductive Stacked : Frames IntLiteral → List Tree → List PlacedOperator → Prop
  | nil : Stacked [] [] []
  | cons {o : Connective} {l e} {top : PlacedOperator} {fs values ops} (hl : Represents l e)
      (htop : top.op = o.1) (h : Stacked fs values ops) : Stacked ((o, l) :: fs) (e :: values) (top :: ops)

/-- The operators on top take their operands as the frames do. -/
lemma achieves_reduceWhile (p : Operator → Bool) (ht : Represents t e) (h : Stacked fs values ops) :
    Achieves P (reduceWhile p (e :: values) ops)
      (fun st => ∃ e' values', st.values = e' :: values' ∧ Represents (close p t fs).1 e' ∧
        Stacked (close p t fs).2 values' st.ops) P := by
  induction h generalizing t e with
  | nil => exact .pure ⟨e, [], rfl, ht, .nil⟩
  | @cons o l e' top fs values ops hl htop hfs ih =>
    rw [reduceWhile, close, htop]
    cases hp : p o.1 with
    | true =>
      refine (achieves_reduce hl ht htop values).bind ?_
      rintro _ ⟨e'', rfl, he''⟩
      exact ih he''
    | false => exact .pure ⟨e, e' :: values, rfl, ht, .cons hl htop hfs⟩

lemma achieves_finish (ht : Represents t e) (h : Stacked fs values ops) :
    Achieves P (finish ⟨e :: values, ops⟩) (Represents (plug t fs)) P := by
  refine (achieves_reduceWhile (fun _ => true) ht h).bind ?_
  rintro ⟨_, ops'⟩ ⟨e', values', rfl, he', hr⟩
  rw [close_all] at he' hr
  cases hr
  exact .pure he'

end Parse

/-! ### Operands -/

lemma TokenKind.eof_ne_ident (name : String) : eof ≠ .ident name := by
  intro h
  cases h

namespace Rules

variable {token : Token}

open Parse

variable {r : Rules} {k : TokenKind} {ks : List TokenKind} {ctx : ExprContext}

/-- The tokens that go on with a value, blocks apart. -/
def postfixKinds : List TokenKind := [.punct ".", .punct "&.", .punct "::", .punct "["]

lemma achieves_primary {P : Lexer → Prop} (h : token.kind = v.kind) :
    Achieves P (r.primary token ctx) (· = some v.tree) P := by
  rw [kind] at h
  rw [tree]
  split at h
  · rename_i hf
    rw [if_pos hf]
    simp only [primary, h]
    exact .pure rfl
  · rename_i hf
    rw [if_neg hf]
    simp only [primary, h]
    exact .pure rfl

lemma achieves_postfixFrom (v : IntLiteral) (start : Span) (hf : 0 < fuel)
    (hk : ∀ name, k ≠ .ident name) (hc : k ∉ postfixKinds) :
    Achieves (Lexer.Feeds (k :: ks)) (r.postfixFrom start ctx fuel v.tree) (· = v.tree)
      (Lexer.Feeds (k :: ks)) := by
  obtain ⟨fuel, rfl⟩ := Nat.exists_eq_succ_of_ne_zero (Nat.ne_of_gt hf)
  have hb : v.tree.takesBlock = false := by
    rw [tree]
    split <;> rfl
  have hclo : closeSafeChain v.tree = pure v.tree := by
    rw [tree]
    split <;> rfl
  have hnot {k'} {token : Token} (ht : token.kind = k) h (hmem : k' ∈ postfixKinds) : False :=
    hc (ht.symm.trans h ▸ hmem)
  rw [postfixFrom]
  refine (achieves_next hk).bind fun token ht => ?_
  split
  iterate 4 exact (hnot ht ‹_› (by decide)).elim
  · simp only [hb, hclo]
    exact (achieves_pushBack ht).bind fun _ _ => .pure rfl

lemma achieves_value? (hr : 0 < r.fuel) (h : token.kind = v.kind) (hk : ∀ name, k ≠ .ident name)
    (hc : k ∉ postfixKinds) :
    Achieves (Lexer.Feeds (k :: ks)) (r.value? token ctx) (· = some v.tree) (Lexer.Feeds (k :: ks)) := by
  rw [value?]
  refine (achieves_primary h).bind ?_
  rintro _ rfl
  exact (achieves_postfixFrom v token.span hr hk hc).bind fun e he => .pure (congrArg some he)

end Rules

/-! ### Expressions -/

namespace Connective

variable (o : Connective)

lemma tokenKind_ne_ident (name : String) : o.1.tokenKind ≠ .ident name := by
  rw [Operator.tokenKind]
  split <;> intro h <;> cases h

lemma tokenKind_not_mem_postfixKinds : o.1.tokenKind ∉ Rules.postfixKinds := by
  have hall : ∀ o ∈ Operator.binaryTable, o.isConnective → o.tokenKind ∉ Rules.postfixKinds := by decide
  exact hall o.1 o.2.1 o.2.2

lemma binaryOperator?_tokenKind : o.1.tokenKind.binaryOperator? {} = some o.1 := by
  have hall : ∀ o ∈ Operator.binaryTable, o.isConnective → o.tokenKind.binaryOperator? {} = some o := by
    decide
  exact hall o.1 o.2.1 o.2.2

end Connective

lemma Formula.exists_tailKinds_eq (rest : List (Connective × IntLiteral)) :
    ∃ k ks, tailKinds rest ++ [.eof] = k :: ks ∧ (∀ name, k ≠ .ident name) ∧ k ∉ Rules.postfixKinds := by
  cases rest with
  | nil => exact ⟨.eof, [], rfl, eof_ne_ident, by decide⟩
  | cons x rest => exact ⟨x.1.1.tokenKind, _, rfl, x.1.tokenKind_ne_ident, x.1.tokenKind_not_mem_postfixKinds⟩

namespace Rules

open Parse

variable {r : Rules} {fs : Frames IntLiteral} {values : List Tree} {ops : List PlacedOperator}

/-- An expression of operands is read along the stack of frames. -/
lemma achieves_exprFrom (hr : 0 < r.fuel) (rest : List (Connective × IntLiteral)) (v : IntLiteral)
    (hf : rest.length < fuel) (h : Stacked fs values ops) :
    Achieves (Lexer.Feeds (v.kind :: (Formula.tailKinds rest ++ [.eof]))) (r.exprFrom {} fuel ⟨values, ops⟩)
      (Represents (build (leaf v) fs rest)) (Lexer.Feeds [.eof]) := by
  induction fuel generalizing rest v fs values ops with
  | zero => exact absurd hf (Nat.not_lt_zero _)
  | succ fuel ih =>
    -- the token behind the operand is looked at twice, by the operand and by the expression, before it
    -- tells whether the formula goes on; so the cases of `rest` are split only then
    obtain ⟨k, ks, ht, hk, hc⟩ := Formula.exists_tailKinds_eq rest
    rw [ht, exprFrom]
    have hkind : (∀ name, v.kind ≠ .ident name) ∧ v.kind.unaryOperator? = none := by
      rw [kind]
      split <;> simp [unaryOperator?]
    refine (achieves_next hkind.1).bind fun token htok => ?_
    rw [htok, hkind.2]
    refine ((achieves_value? hr htok hk hc).weaken fun _ hl => hl.2).bind ?_
    rintro _ rfl
    refine (achieves_next hk).bind fun token' ht' => ?_
    cases rest with
    | nil =>
      cases ht
      rw [ht']
      exact (achieves_pushBack ht').bind fun _ _ => achieves_finish (.leaf v) h
    | cons x rest =>
      obtain ⟨o, w⟩ := x
      cases ht
      have hall : ∀ o ∈ Operator.binaryTable, o.isConnective →
          (o.kind == .ternaryElse) = false ∧ o.isAssignment = false := by decide
      obtain ⟨hkind, ha⟩ := hall o.1 o.2.1 o.2.2
      rw [ht', o.binaryOperator?_tokenKind]
      simp only [hkind, ha]
      refine (achieves_reduceWhile (·.reducesBefore o.1) (.leaf v) h).bind ?_
      rintro ⟨_, ops'⟩ ⟨e, values', rfl, he, hre⟩
      exact (ih rest w (Nat.lt_of_succ_lt_succ hf) (.cons he rfl hre)).weaken fun _ hl => hl.2

/-! ### Programs -/

variable {k : TokenKind} {ks : List TokenKind} {φ : Tree → Prop}

lemma achieves_skipKinds {kinds : List TokenKind} (h : kinds.contains k = false) (fuel : Nat) :
    Achieves (Lexer.Feeds (k :: ks)) (skipKinds kinds fuel) (fun _ => True) (Lexer.Feeds (k :: ks)) := by
  cases fuel with
  | zero => exact .pure trivial
  | succ fuel =>
    rw [skipKinds]
    refine achieves_peekKind.bind ?_
    rintro _ rfl
    rw [h]
    exact .pure trivial

lemma achieves_modifiersFrom (start : Span) (fuel : Nat) {e : Tree} (he : φ e) :
    Achieves (Lexer.Feeds [.eof]) (r.modifiersFrom start fuel e) φ (Lexer.Feeds [.eof]) := by
  cases fuel with
  | zero => exact .pure he
  | succ fuel =>
    rw [modifiersFrom]
    refine (achieves_next eof_ne_ident).bind fun token ht => ?_
    rw [ht]
    exact (achieves_pushBack ht).bind fun _ _ => .pure he

lemma achieves_simpleStatement (h : Achieves (Lexer.Feeds (k :: ks)) (r.expr {}) φ (Lexer.Feeds [.eof])) :
    Achieves (Lexer.Feeds (k :: ks)) r.simpleStatement φ (Lexer.Feeds [.eof]) := by
  rw [simpleStatement]
  refine achieves_peek.bind fun start _ => h.bind fun e he => (achieves_atPunct ",").bind ?_
  rintro _ rfl
  exact .pure he

lemma achieves_statement (h : Achieves (Lexer.Feeds (k :: ks)) (r.expr {}) φ (Lexer.Feeds [.eof])) :
    Achieves (Lexer.Feeds (k :: ks)) r.statement φ (Lexer.Feeds [.eof]) := by
  rw [statement]
  exact achieves_peek.bind fun start _ => (achieves_simpleStatement h).bind fun e he =>
    achieves_modifiersFrom start.span r.fuel he

lemma achieves_statementsFrom
    (h : Achieves (Lexer.Feeds (v.kind :: ks)) (r.expr {}) φ (Lexer.Feeds [.eof])) (hf : 0 < fuel) :
    Achieves (Lexer.Feeds (v.kind :: ks)) (r.statementsFrom Stop.eof fuel)
      (fun stmts => ∃ e, stmts = [e] ∧ φ e) (Lexer.Feeds [.eof]) := by
  obtain ⟨fuel, rfl⟩ := Nat.exists_eq_succ_of_ne_zero (Nat.ne_of_gt hf)
  have hkind : [newline, .punct ";"].contains v.kind = false ∧ (v.kind == .eof) = false := by
    rw [kind]
    split <;> exact ⟨rfl, rfl⟩
  rw [statementsFrom]
  refine (achieves_skipKinds hkind.1 r.fuel).bind fun _ _ => achieves_peekKind.bind fun kind hp => ?_
  rw [hp, Stop.eof, hkind.2]
  refine (achieves_statement h).bind fun e he => ?_
  refine (achieves_next eof_ne_ident).bind fun token ht => ?_
  rw [ht]
  exact (achieves_pushBack ht).bind fun _ _ => .pure ⟨e, rfl, he⟩

end Rules

lemma fuel_rules (n : Nat) : (rules n).fuel = n := by cases n <;> rfl

variable (f : Formula IntLiteral)

lemma achieves_program {s : ParserState} {n : Nat} (hbound : s.bound = n + 2)
    (hn : f.rest.length < n)
    (hf : s.lexer.Feeds (f.first.kind :: (Formula.tailKinds f.rest ++ [.eof]))) :
    ∃ span id e s', Parse.program s = .ok (.node .seq span id [e]) s' ∧ Represents (ofFormula f) e := by
  have hex : Parse.Achieves _ ((rules (n + 1)).expr {}) _ _ :=
    Rules.achieves_exprFrom (by rw [fuel_rules]; omega) f.rest f.first hn .nil
  have hs : Parse.Achieves _ ((rules (n + 2)).statements Stop.eof) _ _ :=
    Rules.achieves_statementsFrom hex (Nat.succ_pos n)
  obtain ⟨_, s₁, hrun, ⟨e, rfl, he⟩, hs₁⟩ := hs s hf
  obtain ⟨eof, s₂, hne, -, -⟩ := Parse.achieves_next eof_ne_ident s₁ hs₁
  refine ⟨⟨s.lexer.cursor.pos, eof.span.stop⟩, s₂.nextId, e, { s₂ with nextId := s₂.nextId + 1 }, ?_, he⟩
  rw [Parse.program, get_bind_eq, hbound]
  exact bind_eq_ok.mpr ⟨_, _, hrun, bind_eq_ok.mpr ⟨_, _, hne, rfl⟩⟩

lemma bound_ofString (file : String) :
    ∃ n, (ParserState.ofString f.text file).bound = n + 2 ∧ f.rest.length < n := by
  have hl : f.rest.length ≤ (utf8 f.text).length := by
    have hr := Formula.length_le_tailBytes f.rest
    rw [f.utf8_text, List.length_append]
    omega
  have hs : (utf8 f.text).length + 2 ≤ ((utf8 f.text).length + 2) * ((utf8 f.text).length + 2) :=
    Nat.le_mul_of_pos_left _ (Nat.succ_pos _)
  have hbound : (ParserState.ofString f.text file).bound =
      4 * (((utf8 f.text).length + 2) * ((utf8 f.text).length + 2)) + 16 := rfl
  exact ⟨(ParserState.ofString f.text file).bound - 2, by omega, by omega⟩

/-- Integer literals with operators between them are read as the one tree that has them in this order and
groups them by priority and side. -/
theorem parse_formula (file : String) :
    ∃ t : OperatorTree IntLiteral, (t.reading = f ∧ t.Ordered) ∧
      (∀ u : OperatorTree IntLiteral, u.reading = f ∧ u.Ordered → u = t) ∧
      ∃ parsed span id e, parse f.text file = .ok parsed ∧ parsed.tree = .node .seq span id [e] ∧
        Represents t e := by
  refine ⟨ofFormula f, ⟨reading_ofFormula f, ordered_ofFormula f⟩, fun u hu => ?_, ?_⟩
  · exact eq_of_reading_eq hu.2 (ordered_ofFormula f) (hu.1.trans (reading_ofFormula f).symm)
  · obtain ⟨n, hbound, hn⟩ := bound_ofString f file
    obtain ⟨span, id, e, s', hrun, he⟩ := achieves_program f hbound hn (Lexer.feeds_formula f)
    refine ⟨⟨.node .seq span id [e], s'.nextId⟩, span, id, e, ?_, rfl, he⟩
    rw [parse, hrun]

end Garnet
