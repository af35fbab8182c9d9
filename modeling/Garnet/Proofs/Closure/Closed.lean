import Garnet.Proofs.Closure.Lifted

/-!
# The names in a lifted body

In the body of a routine a child of a node is a value, an environment, or neither of them, such as a
label. `Tree.names` gives the names that stand for variables in a body: those that are values, and, if
wanted, those in environments. What lifting makes of a tree at a place has as values only the names of
variables that the scope there owns and nobody captures, and in environments only `__env__` and
`__penv__` where they exist (`Lifted.owned_or_env`).
-/

namespace Garnet

open List Node Garnet.Tree

variable {v : String} {i : Nat}

namespace Node

/-- The children of a node of a routine that are values or statements. -/
def valueParts (n : Node) : List Tree := match n.tag.calleePlace? with
  | some i => n.children.eraseIdx i
  | none =>
    match n.tag with
    | .const | .method | .classBody | .procNew => []
    | .singletonMethod | .singletonClass | .ret | .leave => n.children.take 1
    | .index => n.children.drop 1
    | _ => n.children

/-- The children of a node of a routine that are environments. -/
def envParts (n : Node) : List Tree := match n.tag with
  | .index => n.children.take 1
  | .ret | .leave => n.children.drop 1
  | .procNew => (n.children.drop 1).take 1
  | _ => []

/-- The children that are values and, if `envs` is set, those that are environments. -/
def uses (envs : Bool) (n : Node) : List Tree := n.valueParts ++ if envs then n.envParts else []

lemma valueParts_subset (n : Node) : n.valueParts ⊆ n.children := by
  rw [valueParts]
  split
  · exact fun _ => mem_of_mem_eraseIdx
  · split
    all_goals first
      | exact nil_subset _
      | exact take_subset _ _
      | exact drop_subset _ _
      | exact fun _ h => h

lemma envParts_subset (n : Node) : n.envParts ⊆ n.children := by
  rw [envParts]
  split
  · exact take_subset _ _
  · exact drop_subset _ _
  · exact drop_subset _ _
  · exact fun _ h => mem_of_mem_drop (mem_of_mem_take h)
  · exact nil_subset _

lemma uses_subset (envs : Bool) (n : Node) : n.uses envs ⊆ n.children := by
  intro c hc
  rcases mem_append.mp hc with hc | hc
  · exact n.valueParts_subset hc
  · split at hc
    · exact n.envParts_subset hc
    · cases hc

section

variable {tag : Tag} (span : Span) (id : Nat) (cs : List Tree) (envs : Bool)

lemma uses_of_callee (h : tag.calleePlace? = some i) :
    (mk tag span id cs).uses envs = cs.eraseIdx i := by
  have henv : (mk tag span id cs).envParts = [] := by cases tag <;> first | rfl | cases h
  rw [uses, valueParts, h, henv, ite_self, append_nil]

lemma uses_of_exit (h : tag = .ret ∨ tag = .leave) :
    (mk tag span id cs).uses envs = cs.take 1 ++ if envs then cs.drop 1 else [] := by
  rcases h with rfl | rfl <;> rfl

lemma uses_of_object (h : tag = .singletonMethod ∨ tag = .singletonClass) :
    (mk tag span id cs).uses envs = cs.take 1 := by
  rcases h with rfl | rfl <;> cases envs <;> exact append_nil _

end

end Node

namespace Tree

variable {envs : Bool} {cs : List Tree} {span : Span} {tag : Tag} {id : Nat}

/-- The names that stand for variables in the body of a routine; those in environments are among them
if `envs` is set. -/
def names (envs : Bool) : Tree → List String := namesThrough (uses envs)

lemma mem_names_node : v ∈ (node tag span id cs).names envs ↔
      ∃ c ∈ (mk tag span id cs).uses envs, v ∈ c.names envs := by
  have hs : ∀ c ∈ (mk tag span id cs).uses envs, c.size < (mk tag span id cs).tree.size :=
    fun c hc => size_lt_of_mem (uses_subset envs _ hc)
  have hn := namesThrough_tree hs
  rw [← mem_flatMap]
  exact (congrArg (v ∈ ·) hn).to_iff

lemma exists_child_of_mem_names (h : v ∈ (node tag span id cs).names envs) :
    ∃ c ∈ cs, v ∈ c.names envs := by
  obtain ⟨c, hc, hv⟩ := mem_names_node.mp h
  exact ⟨c, uses_subset envs _ hc, hv⟩

lemma mem_names_of_node? {e : Tree} (h : e.node? = none) : v ∈ e.names envs ↔ e.name? = some v := by
  rw [names, namesThrough_of_node? _ h, Option.mem_toList]

end Tree

namespace Closure

variable {a : Activation} {path : Tree}

/-- The names of environments that the routine of scope `i` has. -/
def EnvName (ss : Scopes) (i : Nat) (v : String) : Prop :=
  (v = ownEnv ∧ (ss.get i).frame) ∨ (v = parentEnv ∧ (ss.get i).kind = .block)

variable {ss : Scopes} {T : Nat → Routine → Prop}

/-! ### Names in environments -/

lemma Activation.kind_of_handed (ha : a.Fits ss) {w : EnvValue} (h : a.handed ss = some w) :
    (ss.get a.scope).kind = .block := by
  cases a with
  | root i run => cases h
  | block i run c => exact Scopes.Nested.kind_of_outer? ha.1

/-- A path that leads to a heap frame is made of names of environments. -/
lemma Activation.envName_of_eval (ha : a.Fits ss) {b : Activation} (h : a.eval ss path = some (.frame b))
    (hv : v ∈ path.names true) : EnvName ss a.scope v := by
  fun_induction Activation.eval ss a path generalizing b with
  | case1 span id base c hb ih =>
    obtain ⟨e, he, hve⟩ := exists_child_of_mem_names hv
    rcases mem_pair.mp he with rfl | rfl
    · exact ih hb hve
    · rw [mem_names_of_node? rfl] at hve
      cases hve
  | case2 span id base hnot => cases h
  | case3 e hnot =>
    cases e with
    | name n =>
      rw [mem_names_of_node? rfl] at hv
      cases hv
      rw [named] at h
      split at h
      · rename_i hown
        split at h
        · rename_i hf
          exact .inl ⟨hown, hf⟩
        · cases h
      · split at h
        · rename_i hp
          exact .inr ⟨hp, kind_of_handed ha h⟩
        · split at h <;> cases h
    | _ => cases h

lemma Activation.exists_fits (hn : ss.Nested) (i : Nat) : ∃ a : Activation, a.Fits ss ∧ a.scope = i := by
  induction i using Nat.strongRecOn with
  | ind i ih =>
    cases hi : (ss.get i).outer? with
    | none => exact ⟨.root i 0, hi, rfl⟩
    | some p =>
      obtain ⟨a, ha, rfl⟩ := ih p (hn.lt_of_outer? hi)
      exact ⟨.block i 0 a, ⟨hi, ha⟩, rfl⟩

lemma Reaches.envName (hn : ss.Nested) {goal : Nat} (h : Reaches ss i path goal) (hv : v ∈ path.names true) :
    EnvName ss i v := by
  obtain ⟨a, ha, rfl⟩ := Activation.exists_fits hn i
  obtain ⟨b, -, hev⟩ := h.2 a ha rfl
  exact Activation.envName_of_eval ha hev hv

lemma envName_of_handedEnv (hv : v ∈ (handedEnv ss i).names true) (hl : VarName.isLocal v) :
    EnvName ss i v := by
  rw [handedEnv] at hv
  split at hv
  · rename_i hf
    rw [mem_names_of_node? rfl] at hv
    cases hv
    exact .inl ⟨rfl, hf⟩
  · split at hv
    · rename_i hk
      rw [mem_names_of_node? rfl] at hv
      cases hv
      exact .inr ⟨rfl, hk⟩
    · rw [mem_names_of_node? rfl] at hv
      cases hv
      cases hl

/-! ### Names in lifted trees -/

theorem Lifted.owned_or_env (hn : ss.Nested) {p : Place} {e e' : Tree} (h : Lifted ss T p e e') {envs : Bool}
    (hv : v ∈ e'.names envs) (hl : VarName.isLocal v) :
    (ss.owner? p.scope v = some p.scope ∧ v ∉ (ss.get p.scope).captured) ∨ (envs ∧ EnvName ss p.scope v) := by
  induction h with
  | literal hno hna =>
    rw [mem_names_of_node? hno] at hv
    rw [hna v hv] at hl
    cases hl
  | bare ho hcap =>
    rw [mem_names_of_node? rfl] at hv
    cases hv
    exact .inl ⟨ho, hcap⟩
  | word ho hw hp =>
    obtain ⟨c, hc, hv⟩ := mem_names_node.mp hv
    rcases mem_append.mp hc with hc | hc
    · rw [mem_singleton.mp hc, mem_names_of_node? rfl] at hv
      cases hv
    · cases envs with
      | true => exact .inr ⟨rfl, hp.envName hn (mem_singleton.mp hc ▸ hv)⟩
      | false => cases hc
  | uniform htag hlen hcs ih =>
    obtain ⟨c', hc', hvc⟩ := exists_child_of_mem_names hv
    obtain ⟨j, hj⟩ := mem_iff_getElem?.mp hc'
    have hlt := (List.getElem?_eq_some_iff.mp hj).1
    exact ih j _ c' (List.getElem?_eq_getElem (hlen ▸ hlt)) hj hvc
  | call htag hlen hcal hcs ih =>
    obtain ⟨c', hc', hvc⟩ := mem_names_node.mp hv
    rw [uses_of_callee _ _ _ _ htag] at hc'
    obtain ⟨j, hji, hj⟩ := mem_eraseIdx_iff_getElem?.mp hc'
    have hlt := (List.getElem?_eq_some_iff.mp hj).1
    exact ih j _ c' hji (List.getElem?_eq_getElem (hlen ▸ hlt)) hj hvc
  | const htag =>
    obtain ⟨c, hc, -⟩ := mem_names_node.mp hv
    simp [uses, valueParts, envParts, Tag.calleePlace?, htag] at hc
  | loop htag ht hb ihtest ihbody =>
    obtain ⟨c, hc, hvc⟩ := exists_child_of_mem_names hv
    rcases mem_pair.mp hc with rfl | rfl
    · exact ihtest hvc
    · exact ihbody hvc
  | block htag hs hlis hr hb ih =>
    obtain ⟨c, hc, hvc⟩ := mem_names_node.mp hv
    cases envs with
    | true => exact .inr ⟨rfl, envName_of_handedEnv (mem_singleton.mp hc ▸ hvc) hl⟩
    | false => cases hc
  | method | classBody =>
    obtain ⟨c, hc, -⟩ := mem_names_node.mp hv
    cases envs <;> cases hc
  | singletonMethod _ _ _ _ _ _ _ ih | singletonClass _ _ _ _ _ _ ih =>
    obtain ⟨c, hc, hvc⟩ := mem_names_node.mp hv
    rw [uses_of_object _ _ _ _ (by decide)] at hc
    exact ih (mem_singleton.mp hc ▸ hvc)
  | retOut htag hval hlea hp ih =>
    obtain ⟨c, hc, hvc⟩ := mem_names_node.mp hv
    rw [uses_of_exit _ _ _ _ (.inl htag)] at hc
    rcases mem_append.mp hc with hc | hc
    · exact ih (mem_singleton.mp hc ▸ hvc)
    · cases envs with
      | true => exact .inr ⟨rfl, hp.envName hn (mem_singleton.mp hc ▸ hvc)⟩
      | false => cases hc
  | leaveOut htag hval hloo hlea hout hid hp ih =>
    obtain ⟨c, hc, hvc⟩ := mem_names_node.mp hv
    rw [uses_of_exit _ _ _ _ (.inr htag)] at hc
    rcases mem_append.mp hc with hc | hc
    · exact ih (mem_singleton.mp hc ▸ hvc)
    · cases envs with
      | true =>
        rcases mem_pair.mp hc with rfl | rfl
        · exact .inr ⟨rfl, hp.envName hn hvc⟩
        · rw [mem_names_of_node? rfl] at hvc
          cases hvc
      | false => cases hc
  | ret htag hval _ ih | leave htag hval _ ih | leaveStrict htag hval _ _ _ ih
  | proceed htag hval _ ih | proceedBlock htag hval _ _ ih =>
    obtain ⟨c, hc, hvc⟩ := exists_child_of_mem_names hv
    exact ih (mem_singleton.mp hc ▸ hvc)

end Closure

end Garnet
