import Garnet.Proofs.Reading.Phrase
import Garnet.Reading.Unit
import Mathlib

/-!
# The trees that are read

Statements, definitions, values and expressions are built from well-formed nodes, each tree used once.
So the tree of a unit is well-formed, and its nodes have distinct identities (`parse_source`).
-/

namespace Garnet

open List Parse Garnet.Tree Node Option

namespace Rules

variable {ins values : List Tree} {receiver value e : Tree} {ops : List PlacedOperator} {stack : ExprStack}
  {kind : TokenKind} {p : Parse Tree} {op : Operator} {span : Span}

section

variable {tag : Tag} [Counts] {r : Rules} [hr : r.Sound]

/-! ### Statements -/

variable (name : String) (start : Span) (ctx : ExprContext) (fuel : Nat)

lemma reads_nestedTarget : Reads [] (r.nestedTarget fuel) ([·]) := by
  induction fuel with
  | zero => exact .quiet fun _ => .throw
  | succ fuel ih =>
    refine .quiet fun token => .quiet fun parens => .ite ?_ ?_
    · refine .after (reads_commaSeparated ih _) fun items hitems => ?_
      refine .quiet fun _ => .quiet fun span => ?_
      exact reads_node rfl rfl hitems (by grind)
    · exact .after (hr.expr _) fun e he => .mono (reads_target e he) .rfl

lemma reads_targetsFrom : Reads [] (r.targetsFrom fuel) id := by
  induction fuel with
  | zero => exact reads_nil
  | succ fuel ih =>
    refine .quiet fun more => .ite ?_ reads_nil
    refine .quiet fun last => .ite reads_nil ?_
    exact .after (reads_nestedTarget _) fun e he => reads_cons he ih

lemma reads_moreValues : Reads [] r.moreValues id :=
  .quiet fun _ => .ite (reads_exprs _) reads_nil

lemma reads_listAssignment {n : Node} (htag : n.tag = .assign) (hn : n.tree.IsSource)
    {items : List Tree} (hitems : ∀ e ∈ items, e.IsSource) (span : Span) :
    Reads (items ++ [n.tree]) (do
      let array ← Build.node .array span (n.child 1 :: items)
      return n.rebuild [n.child 0, array]) ([·]) := by
  refine .bind [n.child 0, .node .assign n.span n.id []]
    (reads_node rfl rfl (forall_mem_cons.mpr ⟨hn.child 1, hitems⟩) .rfl)
    (fun array harray => ?_) fun i => ?_
  · rw [rebuild, htag]
    refine .pure (forall_mem_singleton.mpr ?_) fun i => ?_
    · refine isSource_node (n := ⟨.assign, n.span, n.id, [n.child 0, array]⟩) rfl rfl ?_
      exact forall_mem_cons.mpr ⟨hn.child 0, harray⟩
    · simp [copies]
      omega
  · have hparts := copiesIn_map_child i n (show [0, 1].Nodup by decide)
    have hbare := htag ▸ copies_bare_add i n
    simp only [map_cons, copiesIn_append, copiesIn_cons] at hparts ⊢
    omega

lemma reads_simpleStatement : Reads [] r.simpleStatement ([·]) := by
  refine .quiet fun start => .after (hr.expr _) fun first hf => ?_
  refine .quiet fun more => .ite (.pure hf .rfl) ?_
  split
  · rename_i span id children
    refine .after reads_moreValues fun items hitems => .quiet fun span' => ?_
    exact reads_listAssignment (n := ⟨.assign, span, id, children⟩) rfl
      (forall_mem_singleton.mp hf) hitems span'
  · refine .bind [] (reads_target _ hf) (fun first hf => ?_) .rfl
    refine .after (reads_targetsFrom _) fun targets ht => ?_
    refine .quiet fun _ => .after (hr.expr _) fun value hvalue => ?_
    refine .after reads_moreValues fun values hv => .quiet fun span => ?_
    refine .ite (.bind (first :: targets) (.pure hvalue .rfl) ?left fun i => ?_) (.bind (first :: targets)
        (reads_node rfl rfl (by simp_all) .rfl) ?left fun i => ?_)
    · intro right hrig
      exact .bind [right] (reads_node rfl rfl (by simp_all) .rfl)
        (fun left hl => reads_node rfl rfl (by simp_all) .rfl) (by grind)
    all_goals
      simp
      omega

lemma reads_modified (word : String) (mark span : Span) {stmt operand : Tree}
    (hstmt : ∀ e ∈ [stmt], e.IsSource) (hoperand : ∀ e ∈ [operand], e.IsSource) :
    Reads [operand, stmt] (modified word mark span stmt operand) ([·]) := by
  unfold modified
  split
  · exact reads_node rfl rfl (by simp_all) .rfl
  · exact reads_node rfl rfl (by simp_all) (by grind)
  · refine .after (reads_node rfl rfl (by simp) .rfl) fun classes hclasses => ?_
    refine .bind [stmt] (u := [classes, operand]) (reads_node rfl rfl (by simp_all) (by grind))
      (fun clause hclause => builds_protect (by simp_all) (by simp) fun i => ?_) .rfl
    simp
    omega
  · refine .ite (.bind [stmt]
      (reads_node rfl rfl hoperand .rfl) ?loop .rfl) (.bind [stmt] (.pure hoperand .rfl) ?loop .rfl)
    intro test htest
    split
    all_goals exact reads_node rfl rfl (by simp_all) .rfl

lemma reads_modifiersFrom (stmt : Tree) (hstmt : ∀ e ∈ [stmt], e.IsSource) :
    Reads [stmt] (r.modifiersFrom start fuel stmt) ([·]) := by
  induction fuel generalizing stmt with
  | zero => exact .pure hstmt .rfl
  | succ fuel ih =>
    refine builds_next fun token htoken => ?_
    split
    · refine .ite ?_ (.quietOf (quiet_pushBack htoken) fun _ _ => .pure hstmt .rfl)
      refine .after (hr.expr _) fun operand hoperand => .quiet fun span => ?_
      exact .bind [] (reads_modified _ _ _ hstmt hoperand) (fun stmt hstmt => ih stmt hstmt) .rfl
    · exact .quietOf (quiet_pushBack htoken) fun _ _ => .pure hstmt .rfl

lemma reads_statement : Reads [] r.statement ([·]) :=
  .quiet fun _ => .after reads_simpleStatement fun stmt hstmt =>
    reads_modifiersFrom _ _ stmt hstmt

lemma reads_statementsFrom (stop : TokenKind → Bool) (fuel : Nat) :
    Reads [] (r.statementsFrom stop fuel) id := by
  induction fuel with
  | zero => exact reads_nil
  | succ fuel ih =>
    refine .quiet fun _ => .quiet fun kind => .ite reads_nil ?_
    refine .after reads_statement fun stmt hstmt => builds_next fun token htoken => ?_
    refine .ite (reads_cons hstmt ih) (.ite ?_ .throw)
    exact .quietOf (quiet_pushBack htoken) fun _ _ => .pure hstmt .rfl

/-! ### Definitions -/

omit [Counts] in
instance (token : Token) : Quiet (methodName token) := by
  unfold methodName
  split <;> infer_instance

lemma builds_receiver? (token : Token) :
    Builds (fun e => e.node? = none) [] (receiver? token) toList := by
  have hnamed c : Builds (fun e => e.node? = none) []
      (do if ← atPunct "." then return some (.name c) else return none : Parse (Option Tree))
      toList :=
    .quiet fun _ => .ite (.pure (by simp [node?]) .rfl) (.pure (by simp) .rfl)
  unfold receiver?
  split
  iterate 3 exact hnamed _
  · exact .pure (by simp) .rfl

omit [Counts] in
instance : Quiet (setterName name) := .bind

lemma reads_methodParts : ReadsParts [] (inScope .method do
      let params ← if ← acceptPunct "(" then r.parenParameters else r.parameters Stop.line false
      let body ← if ← acceptPunct "=" then do
          r.skipNewlines
          r.statement
        else r.rescueBody start false
      return (params, body)) := by
  refine builds_inScope (.quiet fun parens => ?_)
  refine .ite (.after reads_parenParameters ?body) (.after (reads_parameters _ _) ?body)
  intro params hp
  refine .quiet fun short => ?_
  refine .ite (.quiet fun _ => .after reads_statement ?give)
    (.after (reads_rescueBody _ _) ?give)
  exact fun body hb => reads_parts hp hb

lemma reads_methodDefinition : Reads [] (r.methodDefinition start) ([·]) := by
  refine .quiet fun token => .after (builds_receiver? token) fun receiver hreceiver => ?_
  cases receiver with
  | some e =>
    refine .quiet fun _ => .quiet fun _ => .quiet fun name => ?_
    refine .quiet fun name => BuildsAs.after (reads_methodParts start) fun a ha => ?_
    obtain ⟨⟨hp, hargs⟩, hb⟩ := ha
    exact Builds.quiet fun span =>
      reads_node rfl ‹_› (by simp_all) (by grind)
  | none =>
    refine .quiet fun name => .quiet fun name => ?_
    refine BuildsAs.after (reads_methodParts start) fun a ha => Builds.quiet fun span => ?_
    obtain ⟨⟨hp, hargs⟩, hb⟩ := ha
    exact reads_node rfl ‹_› (by simp_all) (by grind)

lemma reads_pathFrom (path : Tree) (hpath : ∀ e ∈ [path], e.IsSource ∧ e.isConstantPath) :
    Builds (fun e => e.IsSource ∧ e.isConstantPath) [path] (pathFrom start fuel path) ([·]) := by
  induction fuel generalizing path with
  | zero => exact .pure hpath .rfl
  | succ fuel ih =>
    refine .quiet fun more => .ite ?_ (.pure hpath .rfl)
    refine .quiet fun inner => ?_
    split
    · refine .quiet fun span => .bind [] (.node (fun id => ?_) .rfl) ih .rfl
      exact ⟨isSource_node (n := ⟨.path, span, id, [path, _]⟩) rfl rfl (by simp_all), rfl⟩
    · exact .throw

lemma reads_constantPath (r : Rules) :
    Builds (fun e => e.IsSource ∧ e.isConstantPath) [] r.constantPath ([·]) := by
  refine builds_next fun token htoken => ?_
  split
  · rename_i name hname
    rw [hname] at htoken
    exact .mono (reads_pathFrom _ _ _ (forall_mem_singleton.mpr ⟨everywhere_of_node? rfl, htoken⟩)) .rfl
  · refine builds_next fun inner hinner => ?_
    split
    · rename_i name hname
      rw [hname] at hinner
      refine .quiet fun span => .after (.node (fun id => ?_) .rfl) (reads_pathFrom _ _)
      exact ⟨isSource_node (isFormed_topPath hinner) rfl (by simp), rfl⟩
    · exact .throw
  · exact .throw

lemma reads_classDefinition : Reads [] (r.classDefinition start) ([·]) := by
  have hb : Reads [] (inScope .classBody (r.rescueBody start false)) ([·]) :=
    reads_inScope (reads_rescueBody _ _)
  refine .quiet fun single => .ite ?_ ?_
  · refine .after (hr.expr _) fun object ho => .after hb fun body hb => ?_
    exact .quiet fun span => reads_node rfl rfl (by simp_all) (by grind)
  · refine .after (reads_constantPath r) fun path hpath => .quiet fun below => ?_
    refine .ite (.after (hr.expr _) ?body) (.after reads_absent ?body)
    intro superclass hsuperclass
    refine .after hb fun body hb => .quiet fun span => ?_
    obtain ⟨hpath, hc⟩ := forall_mem_singleton.mp hpath
    exact reads_node rfl (isFormed_class (.inl rfl) rfl hc) (by simp_all) (by grind)

lemma reads_moduleDefinition : Reads [] (r.moduleDefinition start) ([·]) := by
  refine .after (reads_constantPath r) fun path hpath => ?_
  refine .after (reads_inScope (reads_rescueBody _ _)) fun body hb => ?_
  obtain ⟨hpath, hc⟩ := forall_mem_singleton.mp hpath
  refine .quiet fun span =>
    reads_node rfl (isFormed_class (.inr rfl) rfl hc) (by simp_all) (by grind)

omit [Counts] in
instance : Quiet aliasName := by
  refine @Quiet.bind _ _ _ _ _ _ _ _ fun token => ?_
  split <;> infer_instance

lemma reads_aliasDefinition : Reads [] (aliasDefinition start) ([·]) := by
  refine .quiet fun new => .quiet fun old => ?_
  exact .quiet fun span => reads_node rfl rfl (by simp) .rfl

/-! ### Values -/

lemma reads_setting {α : Type} {f : ParserState → ParserState} {k : ParserState → Parse α}
    {outs : α → List Tree} (hk : ∀ s, Counter.Ok s → Reads ins (k s) outs)
    (hf : ∀ s, (f s).nextId = s.nextId) (hok : ∀ s, Counter.Ok s → Counter.Ok (f s)) :
    Reads ins (do let s ← get; set (f s); k s) outs := by
  intro s a s' h hs
  have hnext : Counter.next (f s) = Counter.next s := hf s
  rw [← hnext]
  exact hk s hs (show k s (f s) = .ok a s' from h) (hok s hs)

lemma reads_embedded (source : String) (pos : Pos) : Reads [] (r.embedded source pos) ([·]) := by
  refine reads_setting (fun outer ho => .after (hr.statements _) fun stmts hs => ?_)
    (by exact fun _ => rfl) (by exact fun _ _ => nofun)
  refine reads_setting (fun inner _ => ?_) (by exact fun _ => rfl) (by exact fun _ _ => ho)
  exact .mono (reads_body hs _) (by grind)

lemma reads_interpolation (parts : List StrPart) (span : Span) :
    Reads [] (r.interpolation parts span) ([·]) := by
  refine .after (.each (fun part => ?_) parts) fun es hes =>
    reads_node rfl rfl hes (by grind)
  split
  · exact .pure (by simp) .rfl
  · exact reads_embedded _ _

lemma reads_callNode {a : Arguments} (ha : ∀ e ∈ a.trees, e.IsSource)
    (start : Span) : Reads a.trees (callNode name a start) ([·]) := by
  obtain ⟨hblock, hitems⟩ := forall_mem_cons.mp ha
  refine .quiet fun span => .quiet fun s => .ite ?_ ?_
  · exact reads_node rfl rfl hitems fun i => by simp [Arguments.trees]
  · refine .bind [a.block] (reads_params hitems .rfl) (fun args hargs => ?_) fun i => ?_
    · obtain ⟨hargs, hlist⟩ := forall_mem_singleton.mp hargs
      exact reads_node rfl ‹_› (by simp_all) (by grind)
    · simp [Arguments.trees]
      omega

lemma reads_identifier (span : Span) (ctx : ExprContext) : Reads [] (r.identifier name span ctx) ([·]) := by
  refine .quiet fun tight => .ite ?_ (.quiet fun s => .ite ?_ ?_)
  · refine .quiet fun _ => .after reads_parenArguments fun a ha => ?_
    exact .mono (reads_callNode name ha span) (by grind)
  · exact .pure (by simp) .rfl
  · refine .quiet fun starts => .ite ?_ ?_
    · refine .after (reads_commandArguments ctx) fun a ha => ?_
      exact .mono (reads_callNode name ha span) (by grind)
    · exact .mono (reads_callNode name (by simp [Arguments.trees]) span) fun i => by
        simp [Arguments.trees]

section

variable (hreceiver : ∀ e ∈ [receiver], e.IsSource)
include hreceiver

lemma reads_sendOf (name : String) (safe : Bool) (start : Span)
    (a : Arguments) (ha : ∀ e ∈ a.trees, e.IsSource) :
    Reads (a.trees ++ [receiver]) (do
      let span ← since start
      let args ← Build.node .args span a.items
      Build.node (if safe then .safeSend else .send) span [receiver, .name name, args, a.block])
      ([·]) := by
  obtain ⟨hblock, hitems⟩ := forall_mem_cons.mp ha
  refine .quiet fun span => ?_
  refine .bind [receiver, a.block] (reads_params hitems .rfl) (fun args hargs => ?_)
    fun i => ?_
  · obtain ⟨hargs, hlist⟩ := forall_mem_singleton.mp hargs
    cases safe with
    | true | false => exact reads_node rfl ‹_› (by simp_all) (by grind)
  · simp [Arguments.trees]
    omega

lemma reads_finishSend (name : String) (safe : Bool) (ctx : ExprContext) :
    Reads [receiver] (r.finishSend receiver name safe ctx) ([·]) := by
  refine .quiet fun s => .quiet fun tight => ?_
  refine .ite (.quiet ?parens) (.ite (.quiet ?parens) (.quiet ?parens))
  intro parens
  have hs := reads_sendOf hreceiver name safe (receiver.spanOr s.lastSpan)
  refine .quiet fun starts => ?_
  refine .ite (.quiet fun _ => .after reads_parenArguments hs)
    (.ite (.after (reads_commandArguments ctx) hs) (.after (.pure ?_ fun i => ?_) hs))
  · simp [Arguments.trees]
  · simp [Arguments.trees]

lemma reads_dotCall (safe : Bool) (ctx : ExprContext) :
    Reads [receiver] (r.dotCall receiver safe ctx) ([·]) := by
  have hf name := reads_finishSend (r := r) hreceiver name safe ctx
  refine builds_next fun token htoken => ?_
  split
  iterate 3 exact .quiet hf
  · exact .quietOf (quiet_pushBack htoken) fun _ _ => .quiet hf
  · exact .quiet fun _ => .quiet hf
  · exact .ite (.quiet hf) (.quiet hf)
  · exact .quiet hf

lemma reads_pathMember (start : Span) (ctx : ExprContext) :
    Reads [receiver] (r.pathMember receiver start ctx) ([·]) := by
  refine .quiet fun token => ?_
  split
  · refine .quiet fun tight => .ite (reads_finishSend hreceiver _ _ _) ?_
    exact reads_node rfl rfl (by simp_all) .rfl
  · exact reads_finishSend hreceiver _ _ _
  · exact .throw

end

omit [Counts] in
lemma isFormed_attach {id : Nat} {children : List Tree} (block : Tree)
    (htag : [Tag.call, .send, .safeSend, .super, .implicitSuper].contains tag)
    (h : (Node.mk tag span id children).isFormed) :
    (Node.mk tag span id (children.dropLast ++ [block])).isFormed := by
  simp only [contains_eq_mem, mem_cons, not_mem_nil, or_false, decide_eq_true_eq] at htag
  rcases htag with rfl | rfl | rfl | rfl | rfl
  all_goals
    rcases children with _ | ⟨a, _ | ⟨b, _ | ⟨c, _ | ⟨d, _ | ⟨e, rest⟩⟩⟩⟩⟩
    all_goals simp_all [Node.isFormed, Tag.arity?, Tag.namePlace?, Tag.isFlat,
      Tag.argsPlace?, Node.name?, Node.child, Node.namesConstant, Tag.isClass]

lemma reads_attachBlock {call block : Tree} (hcall : ∀ e ∈ [call], e.IsSource)
    (hblock : ∀ e ∈ [block], e.IsSource) (h : call.takesBlock) :
    Reads [block, call] (attachBlock call block) ([·]) := by
  cases call with
  | node tag span id children =>
    refine .ite (.quiet ?attach) (?attach ())
    intro _
    obtain ⟨hn, hchildren⟩ :=
      everywhere_node (n := ⟨tag, span, id, children⟩).mp (forall_mem_singleton.mp hcall)
    simp only [takesBlock, Bool.and_eq_true] at h
    obtain ⟨htag, -⟩ := h
    refine .pure (forall_mem_singleton.mpr (isSource_node (isFormed_attach block htag hn.1) ?_ ?_))
      fun i => ?_
    · have hfree : ∀ t ∈ [Tag.call, .send, .safeSend, .super, .implicitSuper], t.isFree := by decide
      exact hfree tag (contains_iff_mem.mp htag)
    · intro c hc
      rcases mem_append.mp hc with hc | hc
      · exact hchildren c (dropLast_subset children hc)
      · exact hblock c hc
    · have hdrop := copiesIn_sublist i children.dropLast_sublist
      simp [copies]
      omega
  | _ => cases h

lemma reads_closeSafeChain (hvalue : ∀ e ∈ [value], e.IsSource) :
    Reads [value] (closeSafeChain value) ([·]) := by
  have hsame : Reads [value] (pure value) ([·]) := .pure hvalue .rfl
  unfold closeSafeChain
  split
  iterate 2 exact .ite (reads_node rfl rfl hvalue .rfl) hsame
  · exact hsame

lemma reads_postfixFrom (value : Tree) (hvalue : ∀ e ∈ [value], e.IsSource) :
    Reads [value] (r.postfixFrom start ctx fuel value) ([·]) := by
  induction fuel generalizing value with
  | zero => exact .throw
  | succ fuel ih =>
    refine builds_next fun token htoken => ?_
    split
    iterate 2 exact .bind [] (reads_dotCall hvalue _ _) ih .rfl
    · exact .bind [] (reads_pathMember hvalue _ _) ih .rfl
    · refine .after reads_listItems fun items hitems => .quiet fun s => ?_
      refine .bind [] (u := items ++ [value]) (builds_send isSource_of_isPlain
        (forall_mem_singleton.mp hvalue) hitems fun i => ?_) ih (by grind)
      simp
      omega
    · dsimp only
      split
      · rename_i ht
        rw [Bool.and_eq_true] at ht
        refine .after (reads_block _ _) fun block hblock => ?_
        exact .bind [] (reads_attachBlock hvalue hblock ht.1) ih .rfl
      · exact .quietOf (quiet_pushBack htoken) fun _ _ => reads_closeSafeChain hvalue

/-! ### Reserved words as values -/

lemma reads_jump (htag : tag = .ret ∨ tag = .leave ∨ tag = .proceed) (start : Span) (ctx : ExprContext) :
    Reads [] (r.jump tag start ctx) ([·]) := by
  have hn value (hvalue : ∀ e ∈ [value], e.IsSource) :
      Reads ([value] ++ []) (do Build.node tag (← since start) [value]) ([·]) := by
    refine .quiet fun span => ?_
    rcases htag with rfl | rfl | rfl
    all_goals exact reads_node rfl rfl hvalue .rfl
  refine .quiet fun kind => .ite (.after reads_absent hn) ?_
  refine .after (reads_exprs ctx) fun items hitems => ?_
  split
  · exact .bind [] (.pure hitems .rfl) hn .rfl
  · refine .quiet fun span => ?_
    exact .bind [] (reads_node rfl rfl hitems .rfl) hn .rfl

lemma reads_some (h : Reads ins p ([·])) : Reads ins (do return some (← p)) toList :=
  .bind [] h (fun e he => .pure he .rfl) (by grind)

lemma reads_atom (h : e.node? = none) : Reads ins (pure (some e)) toList := by
  refine .pure (by simpa using everywhere_of_node? h) fun i => ?_
  simp [copies_of_node? i h]

lemma reads_keywordValue (word : String) (span : Span) (ctx : ExprContext) :
    Reads [] (r.keywordValue word span ctx) toList := by
  unfold keywordValue
  split
  iterate 4 exact reads_atom rfl
  · exact .quiet fun _ => reads_atom rfl
  · exact reads_atom rfl
  iterate 2 exact reads_some (reads_conditional _ _ _)
  iterate 2 exact reads_some (reads_loop _ _)
  · exact reads_some (reads_choice _)
  · exact reads_some (reads_forLoop _)
  · exact reads_some (reads_rescueBody _ _)
  · exact reads_some (reads_methodDefinition _)
  · exact reads_some (reads_classDefinition _)
  · exact reads_some (reads_moduleDefinition _)
  · exact reads_some (reads_aliasDefinition _)
  · refine .after (reads_optionalArguments ctx) fun a ha => .quiet fun span => ?_
    obtain ⟨hblock, hitems⟩ := forall_mem_cons.mp ha
    refine .bind [] (reads_params hitems .rfl) (fun args hargs => ?_) fun i => ?_
    · obtain ⟨hargs, hlist⟩ := forall_mem_singleton.mp hargs
      exact reads_some (reads_node rfl ‹_› (by simp_all) .rfl)
    · simp [Arguments.trees]
  · refine .quiet fun tight => ?_
    refine .ite (.quiet ?super) (.quiet ?super)
    intro explicit
    refine .after (reads_optionalArguments ctx) fun a ha => .quiet fun span => ?_
    obtain ⟨hblock, hitems⟩ := forall_mem_cons.mp ha
    refine .ite ?_ (reads_some
      (reads_node rfl rfl (by simpa using hblock) fun i => by simp [Arguments.trees]))
    refine .bind [a.block] (reads_params hitems .rfl) (fun args hargs => ?_) fun i => ?_
    · obtain ⟨hargs, hlist⟩ := forall_mem_singleton.mp hargs
      exact reads_some (reads_node rfl ‹_› (by simp_all) .rfl)
    · simp [Arguments.trees]
      omega
  iterate 3 exact reads_some (reads_jump (by simp) _ _)
  iterate 2 exact reads_some (reads_node rfl rfl (by simp) .rfl)
  · exact .throw
  · exact .pure (by simp) .rfl

lemma reads_parenthesized : Reads [] (r.parenthesized start) ([·]) := by
  refine .after (hr.statements _) fun stmts hs => .quiet fun _ => ?_
  split
  · exact .pure (by simp [Tree.nil]) fun i => by simp [Tree.nil]
  · exact .pure hs .rfl
  · exact .quiet fun span => reads_node rfl rfl hs (by grind)

lemma reads_literals {es : List Tree} (h : ∀ e ∈ es, e.node? = none) (span : Span) :
    Reads [] (Build.node .array span es) ([·]) :=
  reads_node rfl rfl (fun e he => everywhere_of_node? (h e he)) fun i =>
    Nat.le_of_eq (copiesIn_eq_zero i fun e he => copies_of_node? i (h e he))

lemma reads_primary (token : Token) (ctx : ExprContext) : Reads [] (r.primary token ctx) toList := by
  unfold primary
  split
  iterate 4 exact reads_atom rfl
  · exact reads_some (reads_interpolation _ _)
  · exact reads_atom rfl
  · exact reads_some (reads_literals (by simp [Tree.text]) _)
  · exact reads_some (reads_literals (by simp [node?]) _)
  · exact reads_some (reads_node rfl rfl (by simp [Tree.text]) fun i => by simp [Tree.text])
  iterate 3 exact reads_atom rfl
  · refine .quiet fun tight => .ite ?_ (reads_atom rfl)
    refine .quiet fun _ => .after reads_parenArguments fun a ha => reads_some ?_
    exact .mono (reads_callNode _ ha _) (by grind)
  · exact reads_some (reads_identifier _ _ _)
  · exact reads_keywordValue _ _ _
  · exact reads_some (reads_parenthesized _)
  · refine .after reads_listItems fun items hitems => .quiet fun span => ?_
    exact reads_some (reads_node rfl rfl hitems (by grind))
  · exact reads_some (reads_hashLiteral _)
  · exact reads_some (reads_lambdaLiteral _)
  · refine builds_next fun inner hinner => ?_
    split
    · rename_i name hname
      rw [hname] at hinner
      exact .quiet fun span => reads_some (reads_node rfl (isFormed_topPath hinner) (by simp) .rfl)
    · exact .throw
  · exact .pure (by simp) .rfl

lemma reads_value? {token : Token} (htoken : token.kind.isProper) (ctx : ExprContext) :
    Reads [] (r.value? token ctx) toList := by
  refine .after (reads_primary token ctx) fun e? he => ?_
  cases e? with
  | some e => exact reads_some (.mono (reads_postfixFrom _ _ _ e he) .rfl)
  | none => exact .quietOf (quiet_pushBack htoken) fun _ _ => .pure (by simp) .rfl

end

/-! ### Operators -/

variable [Counts]

lemma reads_send {items : List Tree} {name : String} (hreceiver : ∀ e ∈ [receiver], e.IsSource)
    (hitems : ∀ e ∈ items, e.IsSource) (hd : Within (receiver :: items) ins) :
    Reads ins (Build.send span receiver name items) ([·]) :=
  builds_send isSource_of_isPlain (forall_mem_singleton.mp hreceiver) hitems hd

lemma reads_leaf (h : e.node? = none) : Reads ins (pure e) ([·]) := by
  refine .pure (by simpa using everywhere_of_node? h) fun i => ?_
  simp [copies_of_node? i h]

lemma reads_negation (h : ∀ e ∈ [value], e.IsSource) (span : Span) :
    Reads [value] (negation value span) ([·]) := by
  unfold negation
  split
  · refine reads_leaf ?_
    split <;> rfl
  · exact reads_leaf rfl
  · exact reads_leaf rfl
  · exact reads_send h (by simp) .rfl

lemma reads_unary (op : Operator) (mark : Span) (h : ∀ e ∈ [value], e.IsSource) :
    Reads [value] (unary op mark value) ([·]) := by
  unfold unary
  split
  · exact reads_node rfl rfl h .rfl
  · exact reads_negation h _
  · split
    iterate 3 exact .pure h .rfl
    · exact reads_send h (by simp) .rfl
  iterate 4 exact reads_node rfl rfl h .rfl
  · exact reads_send h (by simp) .rfl

lemma reads_binary (op : Operator) (mark : Span) {left right : Tree}
    (hl : ∀ e ∈ [left], e.IsSource) (hr : ∀ e ∈ [right], e.IsSource)
    (ht : op.isAssignment → left.isTarget) :
    Reads [right, left] (binary op mark left right) ([·]) := by
  have hb : ∀ e ∈ [left, right], e.IsSource := by simp_all
  unfold binary
  dsimp only
  split
  · exact reads_send hl hr (by grind)
  iterate 4 exact reads_node rfl rfl hb (by grind)
  · exact builds_assign isSource_of_isPlain (forall_mem_singleton.mp hl)
      (forall_mem_singleton.mp hr) (by grind)
  · rename_i name hk
    refine Builds.node (fun id => everywhere_node (n := ⟨.opAssign, _, id, [left, .name name, right]⟩)
      |>.mpr ⟨⟨rfl, nofun, fun _ => ht ?_⟩, by simp_all⟩) (by grind)
    rw [Operator.isAssignment, hk]
  · exact .throw

lemma reads_push {t rest : List Tree} (hp : Reads t p ([·])) (hr : ∀ e ∈ rest, e.IsSource) :
    Reads (t ++ rest) (do return (← p) :: rest) id := by
  refine .bind rest hp (fun e he => .pure ?_ fun i => ?_) .rfl
  · exact forall_mem_append.mpr ⟨he, hr⟩
  · simp

/-- Operators that wait, with their operands so far on top of each other. The one before an
assignment is a target. -/
def Waiting : List PlacedOperator → List Tree → Prop
  | [], _ => True
  | top :: ops, values =>
    (top.op.isAssignment → ∀ v ∈ values.head?, v.isTarget) ∧ (top.op.kind = .ternary → top.op.unary = false) ∧
      Waiting ops (values.drop (top.op.arity - 1))

lemma reads_reduce (h : ∀ e ∈ values, e.IsSource) {top : PlacedOperator}
    (hw : Waiting (top :: ops) values.tail) :
    Reads values (reduce values top) id := by
  refine .ite (.quiet ?operands) (?operands ())
  intro _
  split
  · obtain ⟨hrig, hr⟩ := forall_mem_cons.mp h
    exact reads_push (reads_unary _ _ (forall_mem_singleton.mpr hrig)) hr
  · rename_i right left rest _
    obtain ⟨hrig, hr⟩ := forall_mem_cons.mp h
    obtain ⟨hl, hr⟩ := forall_mem_cons.mp hr
    exact reads_push (reads_binary _ _ (forall_mem_singleton.mpr hl)
      (forall_mem_singleton.mpr hrig) fun ha => hw.1 ha left rfl) hr
  · rename_i no yes test rest _
    obtain ⟨hno, hr⟩ := forall_mem_cons.mp h
    obtain ⟨hyes, hr⟩ := forall_mem_cons.mp hr
    obtain ⟨htest, hr⟩ := forall_mem_cons.mp hr
    refine .quiet fun _ => reads_push (t := [no, yes, test]) (reads_node rfl rfl ?_ fun i => ?_) hr
    · simp_all
    · simp
      omega
  · exact .throw

omit [Counts] in
/-- An operator leaves what waits below its operands, and one value for those it takes. -/
lemma spent_by_reduce (values : List Tree) (top : PlacedOperator) :
    Ensures (fun _ => True) (reduce values top) fun vs _ =>
      vs.tail = values.tail.drop (top.op.arity - 1) ∧ values.length = vs.length + (top.op.arity - 1) := by
  have hpush {Q : List Tree → Prop} (p : Parse Tree) rest (hQ : ∀ e, Q (e :: rest)) :
      Ensures (fun _ => True) (do return (← p) :: rest) fun vs _ => Q vs :=
    Ensures.bind (fun _ _ _ _ _ => trivial) fun e => Ensures.pure fun _ _ => hQ e
  refine .ite (.bind (S := fun _ _ => True) .throw ?operands) (?operands ())
  intro _
  split
  iterate 2
    rename_i harity
    rw [harity]
    exact hpush _ _ fun _ => ⟨rfl, rfl⟩
  · rename_i harity
    rw [harity]
    exact Ensures.bind (fun _ _ _ _ _ => trivial) fun _ => hpush _ _ fun _ => ⟨rfl, rfl⟩
  · exact .throw

lemma reads_reduceWhile (p : Operator → Bool) (h : ∀ e ∈ values, e.IsSource) (hw : Waiting ops values.tail) :
    Reads values (reduceWhile p values ops) ExprStack.values := by
  induction ops generalizing values with
  | nil => exact .pure h .rfl
  | cons top ops ih =>
    refine .ite (.bindOf [] (reads_reduce h hw) (fun vs hr hvs => ?_) (by grind)) ?_
    · obtain ⟨s, s', -, hr⟩ := hr
      exact .mono (ih hvs ((spent_by_reduce _ _ trivial hr).1 ▸ hw.2.2)) (by grind)
    · exact .pure h .rfl

omit [Counts] in
/-- What still waits, waits for the value on top; the first one of it does not satisfy `p`. -/
lemma waiting_reduceWhile {p : Operator → Bool} (hw : Waiting ops values.tail) {s s' : ParserState}
    (h : reduceWhile p values ops s = .ok stack s') :
    Waiting stack.ops stack.values.tail ∧ ∀ top ∈ stack.ops.head?, p top.op = false := by
  induction ops generalizing values s with
  | nil =>
    cases h
    exact ⟨trivial, nofun⟩
  | cons top ops ih =>
    rw [reduceWhile] at h
    split at h
    · obtain ⟨vs, t, hvs, h⟩ := bind_eq_ok.mp h
      exact ih ((spent_by_reduce _ _ trivial hvs).1 ▸ hw.2.2) h
    · rename_i hp
      cases h
      exact ⟨hw, by simpa using hp⟩

lemma reads_finish (h : ∀ e ∈ stack.values, e.IsSource) (hw : Waiting stack.ops stack.values.tail) :
    Reads stack.values (finish stack) ([·]) := by
  refine .bind [] (reads_reduceWhile _ h hw) (fun stack hs => ?_) (by grind)
  split
  · rename_i e he
    exact .pure (he ▸ hs) fun i => by simp [he]
  · exact .quiet fun _ => .throw

lemma reads_missingOperand (stack : ExprStack) : Reads ins (missingOperand stack) ([·]) := by
  refine .quiet fun token => ?_
  split
  · exact .throw
  · exact .throw

/-! ### Expressions -/

omit [Counts] in
lemma mem_unaryTable (h : kind.unaryOperator? = some op) : op ∈ Operator.unaryTable := by
  unfold TokenKind.unaryOperator? at h
  split at h
  · split at h
    · exact mem_of_find?_eq_some h
    · cases h
  iterate 2 exact mem_of_find?_eq_some h
  · cases h

omit [Counts] in
lemma arity_of_unaryOperator? (h : kind.unaryOperator? = some op) :
    op.isAssignment = false ∧ op.kind ≠ .ternary ∧ op.arity = 1 := by
  have hall : ∀ op ∈ Operator.unaryTable, op.isAssignment = false ∧ op.kind ≠ .ternary ∧ op.arity = 1 := by
    decide
  exact hall op (mem_unaryTable h)

omit [Counts] in
lemma mem_binaryTable {ctx : ExprContext} (h : kind.binaryOperator? ctx = some op) :
    op ∈ Operator.binaryTable := by
  obtain ⟨symbol, -, hfind⟩ := bind_eq_some_iff.mp (filter_eq_some_iff.mp h).1
  exact mem_of_find?_eq_some hfind

lemma reads_exprFrom {r : Rules} [hr : r.Sound] (ctx : ExprContext) (fuel : Nat)
    (stack : ExprStack) (h : ∀ e ∈ stack.values, e.IsSource) (hw : Waiting stack.ops stack.values) :
    Reads stack.values (r.exprFrom ctx fuel stack) ([·]) := by
  induction fuel generalizing stack with
  | zero => exact .quiet fun _ => .throw
  | succ fuel ih =>
    refine builds_next fun token htoken => ?_
    split
    · rename_i op hop
      obtain ⟨ha, ht, harity⟩ := arity_of_unaryOperator? hop
      refine ih _ h ⟨by simp [ha], fun hk => absurd hk ht, ?_⟩
      rwa [harity]
    · refine .after (reads_value? htoken ctx) fun value? hvalue => ?_
      cases value? with
      | none => exact reads_missingOperand stack
      | some value =>
        have hv : ∀ e ∈ value :: stack.values, e.IsSource := forall_mem_append.mpr ⟨hvalue, h⟩
        have hf : Reads (value :: stack.values) (finish ⟨value :: stack.values, stack.ops⟩) ([·]) :=
          reads_finish hv hw
        refine builds_next fun mark hm => ?_
        split
        · exact .quietOf (quiet_pushBack hm) fun _ _ => hf
        · rename_i op hop
          have hall : ∀ op ∈ Operator.binaryTable, op.unary = false := by decide
          have hu := hall op (mem_binaryTable hop)
          split
          · rename_i hel
            refine .ite ?_ (.quietOf (quiet_pushBack hm) fun _ _ => hf)
            refine .bindOf [] (reads_reduceWhile _ hv hw) (fun reduced hre hred => ?_) (by grind)
            obtain ⟨s, s', -, hre⟩ := hre
            obtain ⟨hwai, hs⟩ := waiting_reduceWhile hw hre
            refine .mono (ih _ hred ?_) (by grind)
            cases hops : reduced.ops with
            | nil => trivial
            | cons top rest =>
              -- the colon takes the place of its question mark, and one more operand waits
              rw [hops] at hwai hs
              have ht : top.op.kind = .ternary := by simpa using hs top rfl
              have htwo : top.op.arity = 2 := by simp [Operator.arity, ht, hwai.2.1 ht]
              have hthr : op.arity = 3 := by simp [Operator.arity, beq_iff_eq.mp hel]
              refine ⟨fun ha => ?_, fun _ => hu, ?_⟩
              · simp [Operator.isAssignment, beq_iff_eq.mp hel] at ha
              · have hrest := hwai.2.2
                rw [htwo, ← drop_one, drop_drop] at hrest
                rwa [hthr]
          · have htwo : op.arity = 2 := by simp_all [Operator.arity]
            split
            · refine .bind stack.values (builds_target value hvalue) (fun target htar => ?_) .rfl
              obtain ⟨hsou, htar⟩ := forall_mem_singleton.mp htar
              refine ih _ (forall_mem_cons.mpr ⟨hsou, h⟩) ⟨?_, fun _ => hu, ?_⟩
              · rintro - v ⟨⟩
                exact htar
              · rwa [htwo]
            · rename_i ha
              refine .bindOf [] (reads_reduceWhile _ hv hw) (fun reduced hre hred => ?_) (by grind)
              obtain ⟨s, s', -, hre⟩ := hre
              obtain ⟨hwai, -⟩ := waiting_reduceWhile hw hre
              refine .mono (ih _ hred ⟨fun h => absurd h ha, fun _ => hu, ?_⟩) (by grind)
              rwa [htwo, drop_one]

end Rules

/-! ### Units -/

variable [Counts]

lemma rules_sound (fuel : Nat) : (rules fuel).Sound := by
  induction fuel with
  | zero => exact ⟨fun _ => .quiet fun _ => .throw, fun _ => .quiet fun _ => .throw⟩
  | succ fuel ih =>
    exact ⟨fun ctx => Rules.reads_exprFrom ctx fuel {} (by simp) trivial,
      fun stop => Rules.reads_statementsFrom stop fuel⟩

lemma reads_program : Reads [] Parse.program ([·]) := by
  refine .quiet fun s => .after ((rules_sound _).statements _) fun stmts hs => ?_
  exact .quiet fun eof => reads_node rfl rfl hs (by grind)

theorem parse_source {source file : String} {p : Parsed} (h : parse source file = .ok p) :
    p.tree.IsSource ∧ ∀ i, p.tree.copies i ≤ if i < p.nextId then 1 else 0 := by
  unfold parse at h
  split at h
  · rename_i tree s hs
    cases h
    obtain ⟨-, -, hsou, hd⟩ := reads_program hs nofun
    refine ⟨hsou tree (mem_singleton_self tree), fun i => ?_⟩
    have hsta : Counter.next (ParserState.ofString source file) = 0 := rfl
    have hst : Counter.next s = s.nextId := rfl
    simpa [hsta, hst] using hd i
  · cases h

omit [Counts]

/-- The nodes of a tree, each before those in it. -/
def Tree.nodes (e : Tree) : List Node := e.subtrees.filterMap Tree.node?

abbrev Counts.nodes : Counts := ⟨fun _ => true⟩

lemma Tree.count_nodes (i : Nat) (e : Tree) : (e.nodes.map Node.id).count i = @copies Counts.nodes i e := by
  let _ := Counts.nodes
  induction e using induction_on_nodes with
  | leaf e h => cases e <;> first | rfl | cases h
  | node n ih =>
    obtain ⟨tag, span, id, children⟩ := n
    have hchildren : (((subtreesOf children).filterMap node?).map Node.id).count i = copiesIn i children := by
      induction children with
      | nil => rfl
      | cons c cs ihs =>
        obtain ⟨hc, hcs⟩ := forall_mem_cons.mp ih
        rw [subtreesOf, filterMap_append, map_append, count_append, copiesIn_cons, ihs hcs, ← hc, nodes]
    simp only [nodes, Node.tree, subtrees, filterMap_cons, node?, map_cons, count_cons, hchildren]
    rfl

/-- No two nodes of the tree of a unit have the same identity, and the next identity is above all of
them. -/
theorem parse_ids_nodup {source file : String} {p : Parsed} (h : parse source file = .ok p) :
    (p.tree.nodes.map Node.id).Nodup ∧ ∀ n ∈ p.tree.nodes, n.id < p.nextId := by
  have hcount := fun i => Tree.count_nodes i p.tree ▸ (@parse_source Counts.nodes source file p h).2 i
  refine ⟨List.nodup_iff_count_le_one.mpr fun i => ?_, fun n hn => ?_⟩
  · exact Nat.le_trans (hcount i) (by split <;> omega)
  · have hpos := List.count_pos_iff.mpr (List.mem_map_of_mem (f := Node.id) hn)
    have hle := hcount n.id
    split at hle
    · assumption
    · omega

/-- A call with a block inside a string, assigned to an attribute. -/
theorem parse_ids_nodup_interpolated : ∃ p, parse "a.b=\"#\x7bc\x7bd\x7d\x7d\"" = .ok p ∧ p.nextId = 14 ∧
      (p.tree.nodes.map Node.id).Nodup ∧ ∀ n ∈ p.tree.nodes, n.id < p.nextId := by
  have hnext : (parse "a.b=\"#\x7bc\x7bd\x7d\x7d\"").toOption.map Parsed.nextId = some 14 := by cbv
  cases h : parse "a.b=\"#\x7bc\x7bd\x7d\x7d\"" with
  | error e =>
    rw [h] at hnext
    cases hnext
  | ok p =>
    rw [h] at hnext
    exact ⟨p, rfl, some.inj hnext, parse_ids_nodup h⟩

end Garnet
