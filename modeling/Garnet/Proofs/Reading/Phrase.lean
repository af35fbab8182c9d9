import Garnet.Proofs.Reading.Tokens
import Garnet.Reading.Value

/-!
# Reading phrases

The rules of the grammar build well-formed nodes, use each tree they have read once, and take a new
identity for each node. Here this is shown of parameters, bodies, control structures and arguments,
given that it holds of the expressions and statements in them.
-/

namespace Garnet

variable {ins : List Tree} {span : Span} {α : Type} {tag : Tag}

open List Parse Garnet.Tree

variable [Counts]

/-- Reading builds the trees `outs` out of the trees `ins`. -/
abbrev Reads (ins : List Tree) (p : Parse α) (outs : α → List Tree) : Prop := Builds Tree.IsSource ins p outs

lemma reads_node {cs : List Tree} (htag : tag.isFree) (hf : (Node.mk tag span 0 cs).isFormed)
    (hcs : ∀ c ∈ cs, c.IsSource) (hd : Within cs ins) : Reads ins (Build.node tag span cs) ([·]) :=
  builds_source htag hf hcs hd

def Tree.IsParams (e : Tree) : Prop := e.IsSource ∧ e.is .args

lemma reads_params {cs : List Tree} (hcs : ∀ c ∈ cs, c.IsSource) (hd : Within cs ins) :
    Builds Tree.IsParams ins (Build.node .args span cs : Parse Tree) ([·]) :=
  builds_args isSource_of_isPlain hcs hd

lemma reads_absent : Reads ins (pure .absent) ([·]) := .pure (by simp) (by grind)

lemma reads_body {stmts : List Tree} (h : ∀ e ∈ stmts, e.IsSource) (span : Span) :
    Reads stmts (Parse.body stmts span) ([·]) := by
  fun_cases Parse.body stmts span with
  | case1 => exact .pure (by simp) .rfl
  | case2 e => exact .pure h .rfl
  | case3 => exact reads_node rfl rfl h .rfl

/-- The rules one level down build the trees they give. -/
class Rules.Sound (r : Rules) : Prop where
  expr : ∀ ctx, Reads [] (r.expr ctx) ([·])
  statements : ∀ stop, Reads [] (r.statements stop) id

def Arguments.trees (a : Arguments) : List Tree := a.block :: a.items

namespace Rules

variable {kind : ScopeKind}

lemma reads_cons {e : Tree} (he : ∀ c ∈ [e], c.IsSource) {p : Parse (List Tree)}
    (hp : Reads [] p id) : Reads [e] (do return e :: (← p)) id := by
  refine .after hp fun es hes => .pure ?_ (by grind)
  simp_all

lemma reads_nil : Reads ins (pure []) id := .pure (by simp) (by grind)

lemma reads_commaSeparated {item : Parse Tree} (h : Reads [] item ([·])) (fuel : Nat) :
    Reads [] (commaSeparated item fuel) id := by
  induction fuel with
  | zero => exact .pure (by simp) .rfl
  | succ fuel ih =>
    refine .after h fun e he => .quiet fun more => ?_
    exact .ite (reads_cons he ih) (.pure he .rfl)

variable {r : Rules} [hr : r.Sound]

variable (ctx : ExprContext) (start : Span) (fuel : Nat)

lemma reads_exprs : Reads [] (r.exprs ctx) id :=
  reads_commaSeparated (hr.expr ctx) r.fuel

/-! ### Parameters -/

lemma builds_optionalName : Builds (fun e => e.node? = none) [] optionalName ([·]) := by
  refine .quiet fun kind => ?_
  split
  · refine .quiet fun _ => .quiet fun _ => ?_
    exact .pure (by simp [node?]) .rfl
  · exact .pure (by simp [node?]) .rfl

lemma reads_parameter (inBlock : Bool) (fuel : Nat) : Reads [] (r.parameter inBlock fuel) ([·]) := by
  induction fuel with
  | zero => exact .quiet fun _ => .throw
  | succ fuel ih =>
    refine .quiet fun token => ?_
    split
    · refine .quiet fun _ => .quiet fun assigned => ?_
      split
      · refine .after (hr.expr _) fun value hv => .quiet fun span => ?_
        exact reads_node rfl rfl (by simp_all) (by grind)
      · exact .pure (by simp) .rfl
    · refine .quiet fun _ => .quiet fun kind => ?_
      have hn name value (hv : ∀ e ∈ [value], e.IsSource) :
          Reads [value] (do Build.node .keywordArg (← since token.span) [.name name, value]) ([·]) := by
        refine .quiet fun span => ?_
        exact reads_node rfl rfl (by simp_all) (by grind)
      exact .ite (.after reads_absent (hn _)) (.after (hr.expr _) (hn _))
    · refine .after builds_optionalName fun name hname => ?_
      have ha := hname name (mem_singleton_self name)
      exact reads_node rfl (Node.isFormed_mark (.inl rfl) _ 0 ha) (by simpa using everywhere_of_node? ha)
        .rfl
    · refine .after builds_optionalName fun name hname => ?_
      have ha := hname name (mem_singleton_self name)
      refine .ite .throw ?_
      exact reads_node rfl (Node.isFormed_mark (.inr rfl) _ 0 ha) (by simpa using everywhere_of_node? ha)
        .rfl
    · exact .throw
    · refine .after (reads_commaSeparated ih _) fun items hite => ?_
      refine .quiet fun _ => .quiet fun span => ?_
      exact reads_node rfl rfl hite (by grind)
    · exact .throw

lemma reads_parametersFrom (stop : TokenKind → Bool) (multiline : Bool) (fuel : Nat) :
    Reads [] (r.parametersFrom stop multiline fuel) id := by
  induction fuel with
  | zero => exact reads_nil
  | succ fuel ih =>
    refine .ite (.quiet ?items) (?items ())
    refine fun _ => .quiet fun kind => .ite reads_nil ?_
    refine .after (reads_parameter _ _) fun e he => .quiet fun more => ?_
    exact .ite (reads_cons he ih) (.pure he .rfl)

lemma reads_parameters (stop : TokenKind → Bool) (multiline : Bool) :
    Builds Tree.IsParams [] (r.parameters stop multiline) ([·]) := by
  refine .quiet fun token => .after (reads_parametersFrom _ _ _) fun params hparams => ?_
  refine .ite (.quiet ?node) (?node ())
  exact fun _ => .quiet fun span => reads_params hparams (by grind)

lemma reads_parenParameters : Builds Tree.IsParams [] r.parenParameters ([·]) := by
  refine .after (reads_parameters _ _) fun params hparams => .quiet fun _ => ?_
  exact .pure hparams .rfl

omit [Counts] in
instance : Quiet (blockLocals fuel) := by
  induction fuel with
  | zero => exact inferInstanceAs (Quiet (pure ()))
  | succ fuel ih =>
    refine @Quiet.bind _ _ _ _ _ _ _ _ fun kind => ?_
    split <;> infer_instance

lemma reads_blockParametersFrom : Reads [] (r.blockParametersFrom fuel) id := by
  induction fuel with
  | zero => exact reads_nil
  | succ fuel ih =>
    refine .quiet fun closed => .ite reads_nil ?_
    refine .quiet fun locals => .ite ?_ ?_
    · refine .quiet fun _ => .quiet fun _ => reads_nil
    refine .after (reads_parameter _ _) fun e he => .quiet fun more => ?_
    refine .ite (.quiet fun last => .ite ?_ (reads_cons he ih)) ?_
    · refine .quiet fun _ => .after (reads_node rfl rfl (by simp) .rfl) fun rest hre => ?_
      refine .after ih fun es hes => .pure ?_ (by grind)
      simp_all
    · refine .quiet fun locals => .ite (reads_cons he ih) ?_
      exact .quiet fun _ => .pure he .rfl

lemma reads_blockParameters : Builds Tree.IsParams [] r.blockParameters ([·]) := by
  refine .quiet fun token => .quiet fun none => .ite ?_ ?_
  · exact reads_params (by simp) .rfl
  refine .quiet fun some => .ite ?_ (reads_params (by simp) .rfl)
  refine .after (reads_blockParametersFrom _) fun params hparams => ?_
  exact .quiet fun span => reads_params hparams (by grind)

/-! ### Targets -/

def Tree.IsPlace (e : Tree) : Prop := e.IsSource ∧ e.isTarget

lemma builds_inner (htag : tag = .safeChain ∨ tag = .splat) {id : Nat} {inner : Tree} {tail : List Tree}
    (he : (Tree.node tag span id (inner :: tail)).IsSource) {p : Parse Tree}
    (h : inner.IsSource → Builds Tree.IsPlace [inner] p ([·])) :
    Builds Tree.IsPlace [.node tag span id (inner :: tail)] (do return .node tag span id [← p]) ([·]) := by
  refine .bind [.node tag span id []] (h (he.children inner mem_cons_self))
    (fun e he => .pure ?_ fun i => ?_) fun i => ?_
  · obtain ⟨hsource, htarget⟩ := forall_mem_singleton.mp he
    have hall : ∀ c ∈ [e], c.IsSource := forall_mem_singleton.mpr hsource
    refine forall_mem_singleton.mpr ⟨isSource_node (n := ⟨tag, span, id, [e]⟩) ?_ ?_ hall, ?_⟩
    iterate 2 rcases htag with rfl | rfl <;> rfl
    · rcases htag with rfl | rfl
      · exact htarget
      · rfl
  · simp [copies]
  · simp only [copiesIn_append, copiesIn_cons, copiesIn_nil, copies]
    omega

lemma builds_target (e : Tree) (he : ∀ c ∈ [e], c.IsSource) :
    Builds Tree.IsPlace [e] (Parse.target e) ([·]) := by
  induction e using Parse.target.induct with
  | case1 t ih =>
    have ht := he t (mem_singleton_self t)
    have hsame (htarget : t.isTarget) : Builds Tree.IsPlace [t] (pure t : Parse Tree) ([·]) :=
      .pure (forall_mem_singleton.mpr ⟨ht, htarget⟩) .rfl
    have hname name : Builds Tree.IsPlace [t] (pure (.name name) : Parse Tree) ([·]) :=
      .pure (forall_mem_singleton.mpr ⟨everywhere_of_node? rfl, rfl⟩) (by grind)
    rw [Parse.target.eq_def]
    refine .quiet fun s => ?_
    split
    · refine .ite (.quiet ?declare) (?declare ())
      exact fun _ => .quiet fun _ => hsame rfl
    · split
      · exact .ite (.quiet fun _ => hname _) .throw
      iterate 2 exact .ite (hsame rfl) .throw
      · exact hsame rfl
      · exact hsame rfl
      · exact builds_inner (.inl rfl) ht fun h => ih (by simpa using h)
      · exact builds_inner (.inr rfl) ht fun h => ih (by simpa using h)
      iterate 2 exact .quiet fun _ => .throw
      · exact .throw
    · exact .throw

lemma reads_target (e : Tree) (he : ∀ c ∈ [e], c.IsSource) : Reads [e] (Parse.target e) ([·]) :=
  (builds_target e he).weaken fun _ h => h.1

/-! ### Bodies -/

lemma reads_rescueClause : Reads [] (r.rescueClause start) ([·]) := by
  refine .quiet fun kind => ?_
  refine .ite (.after reads_nil ?bound) (.after (reads_exprs _) ?bound)
  intro classes hc
  refine .quiet fun bound => ?_
  refine .ite (.after (hr.expr _) fun e he => .bind (classes ++ []) (reads_target e he) ?run .rfl) (.after reads_absent ?run)
  intro target htarget
  refine .quiet fun _ => .after (hr.statements _) fun stmts hs => ?_
  refine .quiet fun span => ?_
  refine .bind (target :: stmts)
    (reads_node rfl rfl hc .rfl) (fun tests ht => ?_) (by grind)
  refine .bind [tests, target] (reads_body hs span) (fun body hbody => ?_) (by grind)
  exact reads_node rfl rfl (by simp_all) (by grind)

def Clauses.trees (c : Clauses) : List Tree := c.otherwise :: c.ensure :: c.rescues

lemma reads_clausesFrom (acc : Clauses) (hacc : ∀ e ∈ acc.trees, e.IsSource) :
    Reads acc.trees (r.clausesFrom fuel acc) Clauses.trees := by
  induction fuel generalizing acc with
  | zero => exact .pure hacc .rfl
  | succ fuel ih =>
    have hsame : Reads acc.trees (pure acc) Clauses.trees := .pure hacc .rfl
    simp only [Clauses.trees, forall_mem_cons] at hacc ih
    obtain ⟨ho, hens, hres⟩ := hacc
    refine .quiet fun token => ?_
    split
    · refine .after (reads_rescueClause _) fun clause hc => .mono (ih _ ?_) fun i => ?_
      · refine ⟨ho, hens, fun e he => ?_⟩
        exact (mem_append.mp he).elim (hres e) (hc e)
      · simp [Clauses.trees]
        omega
    · refine .after (hr.statements _) fun stmts hs => ?_
      refine .bind (acc.ensure :: acc.rescues) (reads_body hs _)
        (fun e he => ih _ ⟨he e (mem_singleton_self e), hens, hres⟩) fun i => ?_
      simp [Clauses.trees]
    · refine .after (hr.statements _) fun stmts hs => ?_
      refine .bind (acc.otherwise :: acc.rescues) (reads_body hs _)
        (fun e he => .mono (ih _ ⟨ho, he e (mem_singleton_self e), hres⟩) fun i => ?_)
        fun i => ?_
      · simp
        omega
      · simp [Clauses.trees]
    · exact hsame
    · exact .throw

lemma reads_rescueBody (wrap : Bool) : Reads [] (r.rescueBody start wrap) ([·]) := by
  refine .after (hr.statements _) fun stmts hs => ?_
  refine .bind [] (reads_body hs start) (fun body hbody => ?_) .rfl
  refine .after (reads_clausesFrom _ {} (by simp [Clauses.trees])) fun clauses hc => ?_
  refine .ite (.pure hbody (by grind)) (.quiet fun span => ?_)
  refine builds_protect ?_ (by simp) fun i => ?_
  · simp only [Clauses.trees] at hc
    simp_all [or_imp]
  · simp [Clauses.trees]
    omega

lemma reads_braceBody : Reads [] (r.braceBody start) ([·]) := by
  refine .after (hr.statements _) fun stmts hs => .quiet fun _ => ?_
  exact .mono (reads_body hs start) (by grind)

lemma builds_inScope {Q : α → Prop} {p : Parse α} {o : α → List Tree} (h : BuildsAs Q [] p o) :
    BuildsAs Q [] (inScope kind p) o := by
  refine .quietOf (.modify (fun _ => rfl) fun _ => id) fun _ _ => .after h fun a ha => ?_
  exact .quietOf (.modify (fun _ => rfl) fun _ => id) fun _ _ => .pure ha (by grind)

lemma reads_inScope {p : Parse α} {o : α → List Tree} (h : Reads [] p o) : Reads [] (inScope kind p) o :=
  builds_inScope h

abbrev ReadsParts (ins : List Tree) (p : Parse (Tree × Tree)) : Prop :=
  BuildsAs (fun a => a.1.IsParams ∧ a.2.IsSource) ins p fun a => [a.1, a.2]

lemma reads_parts {params body : Tree} (hparams : ∀ e ∈ [params], e.IsParams)
    (hbody : ∀ e ∈ [body], e.IsSource) : ReadsParts ([body] ++ ([params] ++ ins)) (pure (params, body)) := by
  exact .pure ⟨forall_mem_singleton.mp hparams, forall_mem_singleton.mp hbody⟩ (by grind)

lemma reads_lambda {a : Tree × Tree} (ha : a.1.IsParams ∧ a.2.IsSource) (span : Span) :
    Reads ([a.1, a.2] ++ ins) (Build.node .lambda span [a.1, a.2]) ([·]) := by
  obtain ⟨⟨hparams, hargs⟩, hbody⟩ := ha
  exact reads_node rfl ‹_› (by simp_all) (by grind)

lemma reads_block (brace : Bool) : Reads [] (r.block start brace) ([·]) := by
  refine BuildsAs.after (builds_inScope (?_ : ReadsParts [] _)) fun a ha => ?_
  · refine .after reads_blockParameters fun params hparams => ?_
    refine .ite (.after (reads_braceBody _) ?give) (.after (reads_rescueBody _ _) ?give)
    exact fun body hbody => reads_parts hparams hbody
  · exact Builds.quiet fun span => reads_lambda ha span

lemma reads_lambdaLiteral : Reads [] (r.lambdaLiteral start) ([·]) := by
  refine BuildsAs.after (builds_inScope (?_ : ReadsParts [] _)) fun a ha => ?_
  · refine .quiet fun parens => ?_
    refine .ite (.after reads_parenParameters ?body) (.after (reads_parameters _ _) ?body)
    intro params hparams
    refine .quiet fun brace => ?_
    refine .ite (.after (reads_braceBody _) ?give)
      (.quiet fun _ => .after (reads_rescueBody _ _) ?give)
    exact fun body hbody => reads_parts hparams hbody
  · refine Builds.quiet fun span => ?_
    refine Builds.bind [] (reads_lambda ha span) (fun lambda hl => ?_) .rfl
    refine .after (reads_params (by simp) .rfl) fun args hargs => ?_
    obtain ⟨hargs, hli⟩ := forall_mem_singleton.mp hargs
    exact reads_node rfl ‹_› (by simp_all) (by grind)

/-! ### Control structures -/

lemma reads_condition : Reads [] r.condition ([·]) := by
  refine .after (hr.expr _) fun e he => .quiet fun _ => ?_
  exact .pure he .rfl

lemma reads_endedStatements : Reads [] r.endedStatements id := by
  refine .after (hr.statements _) fun stmts hs => .quiet fun _ => ?_
  exact .pure hs (by grind)

lemma reads_conditional (negated : Bool) (fuel : Nat) (start : Span) :
    Reads [] (r.conditional negated fuel start) ([·]) := by
  induction fuel generalizing negated start with
  | zero => exact .throw
  | succ fuel ih =>
    refine .after reads_condition fun test ht => ?_
    refine .after (hr.statements _) fun stmts hs => ?_
    refine .bind [test] (reads_body hs start) (fun yes hyes => ?_) .rfl
    refine .quiet fun token => ?_
    dsimp only
    split
    on_goal 1 => refine .ite (.after (.throw : Reads [] _ ([·])) ?node) (.after (ih _ _) ?node)
    on_goal 2 =>
      refine .after reads_endedStatements fun stmts hs => ?_
      refine .bind ([yes] ++ [test]) (reads_body hs _) ?_ .rfl
    on_goal 3 => refine .after reads_absent ?_
    on_goal 4 => refine .after (.throw : Reads [] _ ([·])) ?_
    all_goals
      refine fun no hno => .quiet fun span => ?_
      cases negated with
      | true | false => exact reads_node rfl rfl (by simp_all) (by grind)

lemma reads_loop (negated : Bool) : Reads [] (r.loop start negated) ([·]) := by
  refine .after (hr.expr _) fun test ht => .quiet fun _ => ?_
  refine .after reads_endedStatements fun stmts hs => .quiet fun span => ?_
  refine .ite (.bind stmts (reads_node rfl rfl ht .rfl) ?body fun i => ?_)
    (.bind stmts (.pure ht .rfl) ?body fun i => ?_)
  · intro test ht
    refine .bind [test] (reads_body hs span) (fun body hbody => ?_) (by grind)
    exact reads_node rfl rfl (by simp_all) (by grind)
  all_goals
    simp
    omega

lemma reads_forLoop : Reads [] (r.forLoop start) ([·]) := by
  have htarget : Reads [] (do target (← r.expr .condition)) ([·]) :=
    .after (hr.expr _) fun e he => .mono (reads_target e he) .rfl
  refine .after (reads_commaSeparated htarget _) fun vars hv => ?_
  refine .quiet fun _ => .after (hr.expr _) fun collection hc => ?_
  refine .quiet fun _ => .after reads_endedStatements fun stmts hs => ?_
  refine .quiet fun span => ?_
  have hn var (hvar : ∀ e ∈ [var], e.IsSource) : Reads ([var] ++ (collection :: stmts)) (do
      let body ← Parse.body stmts span
      Build.node .forLoop span [var, collection, body]) ([·]) := by
    refine .bind [var, collection] (reads_body hs span) (fun body hbody => ?_) (by grind)
    exact reads_node rfl rfl (by simp_all) (by grind)
  split
  · exact .bind _ (.pure hv .rfl) hn (by grind)
  · exact .bind _ (reads_node rfl rfl hv .rfl) hn (by grind)

lemma reads_arm : Reads [] (r.arm start) ([·]) := by
  have hte : Reads [] (do r.skipNewlines; r.expr .condition) ([·]) :=
    .quiet fun _ => hr.expr _
  refine .after (reads_commaSeparated hte _) fun tests ht => ?_
  refine .quiet fun _ => .after (hr.statements _) fun stmts hs => ?_
  refine .quiet fun span => ?_
  refine .bind stmts (reads_node rfl rfl ht .rfl) (fun tests ht => ?_) (by grind)
  refine .bind [tests] (reads_body hs span) (fun body hbody => ?_) (by grind)
  exact reads_node rfl rfl (by simp_all) (by grind)

lemma reads_armsFrom : Reads [] (r.armsFrom fuel) id := by
  induction fuel with
  | zero => exact reads_nil
  | succ fuel ih =>
    refine .quiet fun token => ?_
    split
    · exact .after (reads_arm _) fun e he => reads_cons he ih
    · exact .throw
    · refine .after reads_endedStatements fun stmts hs => ?_
      refine .bind [] (reads_body hs _) (fun e he => .pure he .rfl) .rfl
    · exact .pure (by simp) .rfl
    · exact .throw

lemma reads_choice : Reads [] (r.choice start) ([·]) := by
  refine .quiet fun kind => ?_
  refine .ite (.after reads_absent ?arms) (.after (hr.expr _) ?arms)
  intro subject hs
  refine .quiet fun _ => .after (reads_armsFrom _) fun arms ha => ?_
  exact .quiet fun span => reads_node rfl rfl (by simp_all) (by grind)

/-! ### Arguments -/

omit [Counts] in
instance : Quiet startsArgument := .bind

def Gathered.trees (g : Gathered) : List Tree := g.block :: g.pairs ++ g.items

lemma reads_argument (acc : Gathered) (hacc : ∀ e ∈ acc.trees, e.IsSource) :
    Reads acc.trees (r.argument ctx acc) Gathered.trees := by
  simp only [Gathered.trees] at hacc
  have hp pair (h : ∀ e ∈ [pair], e.IsSource) :
      Reads ([pair] ++ acc.trees) (pure { acc with pairs := pair :: acc.pairs }) Gathered.trees := by
    refine .pure ?_ fun i => ?_
    · simp_all [Gathered.trees]
    · simp [Gathered.trees]
      omega
  refine .quiet fun kind => ?_
  split
  · refine .quiet fun token => .quiet fun _ => ?_
    refine .after (hr.expr _) fun value hval => .quiet fun span => ?_
    exact .bind acc.trees (u := [value]) (reads_node rfl rfl (by simp_all) (by grind)) hp .rfl
  · refine .after (hr.expr _) fun value hval => .quiet fun arrow => ?_
    refine .ite ?_ (.ite ?_ (.ite (hp value hval) ?_))
    · refine .quiet fun _ => .after (hr.expr _) fun v hv => ?_
      refine .quiet fun _ => ?_
      exact .bind acc.trees (reads_node rfl rfl (by simp_all) .rfl) hp (by grind)
    · refine .pure ?_ fun i => ?_
      · simp_all [Gathered.trees]
      · simp [Gathered.trees]
    · refine .pure ?_ fun i => ?_
      · simp_all [Gathered.trees, or_imp]
      · simp [Gathered.trees]
        omega

lemma reads_argumentsFrom (parens : Bool) (fuel : Nat) (acc : Gathered)
    (hacc : ∀ e ∈ acc.trees, e.IsSource) :
    Reads acc.trees (r.argumentsFrom ctx parens fuel acc) Gathered.trees := by
  induction fuel generalizing acc with
  | zero => exact .pure hacc .rfl
  | succ fuel ih =>
    refine .ite (.quiet ?rest) (?rest ())
    refine fun _ => .ite (.quiet fun closed => .ite (.pure hacc .rfl) ?item) ?item
    refine .bind [] (reads_argument ctx acc hacc) (fun g hg => ?_) (by grind)
    refine .quiet fun more => .ite (.mono (ih g hg) (by grind)) ?_
    exact .pure hg (by grind)

lemma reads_argumentList (parens : Bool) : Reads [] (r.argumentList ctx parens) Arguments.trees := by
  refine .after (reads_argumentsFrom ctx parens _ {} (by simp [Gathered.trees])) fun acc hacc => ?_
  simp only [Gathered.trees, cons_append, forall_mem_cons, forall_mem_append] at hacc
  obtain ⟨hb, hp, hite⟩ := hacc
  refine .ite (.quiet ?gather) (?gather ())
  intro _
  split
  · refine .pure ?_ fun i => ?_
    · simp_all [Arguments.trees]
    · simp [Arguments.trees, Gathered.trees]
  · rename_i first rest hre
    have hp' : ∀ e ∈ first :: rest, e.IsSource := fun e he =>
      hp e (mem_reverse.mp (hre ▸ he))
    have hc i : copiesIn i (first :: rest) = copiesIn i acc.pairs := by
      rw [← hre, copiesIn_reverse]
    refine .quiet fun _ => .quiet fun span => ?_
    refine .bind (acc.block :: acc.items) (reads_node rfl rfl hp' .rfl)
      (fun hash hh => .pure ?_ fun i => ?_) fun i => ?_
    · simp_all [Arguments.trees, or_imp]
    · simp [Arguments.trees]
      omega
    · rw [copiesIn_append, hc]
      simp [Gathered.trees]
      omega

lemma reads_parenArguments : Reads [] r.parenArguments Arguments.trees := by
  refine .after (reads_argumentList _ _) fun a ha => .quiet fun _ => ?_
  exact .pure ha (by grind)

lemma reads_commandArguments : Reads [] (r.commandArguments ctx) Arguments.trees := reads_argumentList _ _

lemma reads_optionalArguments : Reads [] (r.optionalArguments ctx) Arguments.trees := by
  refine .quiet fun tight => .ite ?_ ?_
  · exact .quiet fun _ => reads_parenArguments
  · refine .quiet fun starts => .ite (reads_commandArguments ctx) ?_
    exact .pure (by simp [Arguments.trees]) fun i => by simp [Arguments.trees]

lemma reads_itemsFrom : Reads [] (r.itemsFrom fuel) id := by
  induction fuel with
  | zero => exact reads_nil
  | succ fuel ih =>
    refine .quiet fun _ => .quiet fun closed => ?_
    refine .ite reads_nil (.after (hr.expr _) fun e he => .quiet fun _ => ?_)
    exact .quiet fun more => .ite (reads_cons he ih) (.pure he .rfl)

lemma reads_listItems : Reads [] r.listItems id := by
  refine .after (reads_itemsFrom _) fun items hite => .quiet fun _ => ?_
  exact .quiet fun _ => .pure hite (by grind)

lemma reads_hashEntry : Reads [] r.hashEntry ([·]) := by
  refine builds_next fun token ht => ?_
  split
  · refine .quiet fun _ => .after (hr.expr _) fun value hv => ?_
    exact .quiet fun span =>
      reads_node rfl rfl (by simp_all) (by grind)
  · refine .quietOf (quiet_pushBack ht) fun _ _ => .after (hr.expr _) fun key hkey => ?_
    refine .ite (.pure hkey .rfl) (.quiet fun _ => ?_)
    refine .quiet fun _ => .quiet fun _ => ?_
    refine .after (hr.expr _) fun value hv => .quiet fun span => ?_
    exact reads_node rfl rfl (by simp_all) (by grind)

lemma reads_entriesFrom : Reads [] (r.entriesFrom fuel) id := by
  induction fuel with
  | zero => exact reads_nil
  | succ fuel ih =>
    refine .quiet fun _ => .quiet fun closed => ?_
    refine .ite reads_nil (.after reads_hashEntry fun e he => ?_)
    refine .quiet fun _ => .quiet fun more => ?_
    exact .ite (reads_cons he ih) (.pure he .rfl)

lemma reads_hashLiteral : Reads [] (r.hashLiteral start) ([·]) := by
  refine .after (reads_entriesFrom _) fun pairs hp => .quiet fun _ => ?_
  refine .quiet fun _ => .quiet fun span => ?_
  exact reads_node rfl rfl hp (by grind)

end Rules

end Garnet
