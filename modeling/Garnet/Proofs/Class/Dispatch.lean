import Garnet.Proofs.Class.Line
import Garnet.Proofs.Class.Slots

/-!
# Dispatch

Whatever is done to the classes of a program, a method is found under the place of its name in the method
table of every class: it is that of the first ancestor which has one (`dispatch_coherent`).

`super` goes on behind the class that a method is defined in, along the ancestors of that class, and the
ancestors of a subclass end with these as long as the subclass includes none of them once more: this is
`super_continues`.
-/

namespace Garnet

open SlotTable

namespace ClassTable

variable {t t' : ClassTable} {id c p : ClassId} {name label : String}

/-! ### Operations -/

/-- What can be done to the classes of a program. -/
inductive Operation where
  | define (name : String) (kind : ClassKind) (superclass : Option ClassId)
  | method (cls : ClassId) (name label : String)
  | secondName (cls : ClassId) (new old : String)
  | mixin (cls module : ClassId)
  | slot (name : String)

namespace Operation

variable {op : Operation}

/-- The table after an operation. One that fails changes nothing. -/
def apply (t : ClassTable) : Operation → ClassTable
  | .define name kind superclass => ((t.define name kind superclass).toOption.map Prod.snd).getD t
  | .method cls name label => t.defineMethod cls name label
  | .secondName cls new old => (t.aliasMethod cls new old).toOption.getD t
  | .mixin cls module => t.includeModule cls module
  | .slot name => { t with slots := t.slots.insert name }

/-- The operation gives a class a method, by a definition or under a second name. -/
def Gives (op : Operation) (t : ClassTable) (c : ClassId) (name label : String) : Prop :=
  op = .method c name label ∨ ∃ old, op = .secondName c name old ∧ t.findMethod? c old = some label

lemma apply_of_gives (h : op.Gives t c name label) : op.apply t = t.defineMethod c name label := by
  rcases h with rfl | ⟨old, rfl, hold⟩
  · rfl
  · rw [apply, aliasMethod, hold]
    rfl

lemma apply_define (t : ClassTable) (name : String) (kind : ClassKind) (superclass : Option ClassId) :
    (Operation.define name kind superclass).apply t = t ∨
      ∃ id t', t.define name kind superclass = .ok (id, t') ∧
        (Operation.define name kind superclass).apply t = t' := by
  rw [apply]
  cases h : t.define name kind superclass with
  | error e => exact .inl rfl
  | ok p => exact .inr ⟨p.1, p.2, rfl, rfl⟩

/-- A definition is of a class or module, under a superclass that has a name, and what is included is a
module. -/
def Fits (t : ClassTable) : Operation → Prop
  | .define _ kind superclass => kind ≠ .metaclass ∧ ∀ s ∈ superclass, ∃ name, t.lookup? name = some s
  | .mixin _ module => (t.info module).kind = .mixin
  | _ => True

/-- Each of the operations fits the table that the ones before it leave. -/
def Orderly : ClassTable → List Operation → Prop
  | _, [] => True
  | t, op :: ops => op.Fits t ∧ Orderly (op.apply t) ops

lemma grows_apply (t : ClassTable) (op : Operation) : t.slots.Grows (op.apply t).slots := by
  cases op with
  | define name kind superclass =>
    rcases apply_define t name kind superclass with h | ⟨id, t', hd, h⟩
    · rw [h]
      exact .refl _
    · rw [h]
      rcases define_cases hd with ⟨-, rfl⟩ | ⟨parent, -, -, rfl, -⟩ <;> exact .refl _
  | method cls name label => exact grows_insert _ _
  | secondName cls new old =>
    rw [apply, aliasMethod]
    split
    · exact grows_insert _ _
    · exact .refl _
  | mixin cls module => exact .refl _
  | slot name => exact grows_insert _ _

lemma grows_foldl (ops : List Operation) (t : ClassTable) : t.slots.Grows (ops.foldl apply t).slots := by
  induction ops generalizing t with
  | nil => exact .refl _
  | cons op ops ih => exact (grows_apply t op).trans (ih _)

lemma lined_apply (h : t.Lined) (hop : op.Fits t) : (op.apply t).Lined := by
  cases op with
  | define name kind superclass =>
    rcases apply_define t name kind superclass with heq | ⟨id, t', hd, heq⟩
    · rwa [heq]
    · rw [heq]
      obtain ⟨hreg, hext, -⟩ := define_spec h.regular hop.1 hop.2 hd
      refine h.of_extends hreg hext fun i => .inl ?_
      rcases define_cases hd with ⟨-, rfl⟩ | ⟨parent, -, -, rfl, -⟩
      · rfl
      · exact includes_insert t name kind parent false i
  | method cls name label => exact h.defineMethod cls name label
  | secondName cls new old =>
    rw [apply, aliasMethod]
    split
    · exact h.defineMethod cls new _
    · exact h
  | mixin cls module =>
    refine h.of_extends (h.regular.includeModule cls module) (extends_includeModule t cls module) fun i => ?_
    rw [apply, includeModule, info_modify]
    split
    · exact .inr ⟨module, rfl, hop⟩
    · exact .inl rfl
  | slot name =>
    have hext : t.Extends (apply t (.slot name)) := ⟨le_rfl, fun i _ => .refl (t.info i), fun h => h⟩
    exact h.of_extends (h.regular.of_extends hext rfl rfl) hext fun i => .inl rfl

lemma lined_foldl {ops : List Operation} (h : t.Lined) (hops : Orderly t ops) :
    (ops.foldl apply t).Lined := by
  induction ops generalizing t with
  | nil => exact h
  | cons op ops ih => exact ih (lined_apply h hops.1) hops.2

end Operation

/-! ### Two subclasses -/

/-- A class with a module, and two subclasses of which the first one includes the module too. -/
def twice : List Operation :=
  let k := initial.classes.size
  [.define "M" .mixin none, .define "P" .ordinary none, .mixin (k + 2) k,
    .define "C" .ordinary (some (k + 2)), .define "D" .ordinary (some (k + 2)), .mixin (k + 4) k]

lemma twice_spec {k : ClassId} (hk : initial.classes.size = k)
    (ht : twice.foldl Operation.apply initial = t) :
    Operation.Orderly initial twice ∧ t.parent? (k + 4) = some (k + 2) ∧ t.parent? (k + 6) = some (k + 2) ∧
      (t.info (k + 2)).includes = [k] ∧ (t.info (k + 4)).includes = [k] ∧ (t.info (k + 6)).includes = [] ∧
      (t.info (k + 6)).methods = ∅ ∧ t.classes.size = k + 8 := by
  subst hk ht
  have hnew name (h : name ∉ (Builtin.classes.reverse.map BuiltinClass.name)) :
      initial.byName[name]? = none := by
    rwa [← lookup?, ← Option.not_isSome_iff_eq_none, holds_initial.mem]
  have ho {t : ClassTable} {id p}
      (h : (t.info id).kind = .ordinary ∧ (t.info id).superclass = some p) : t.parent? id = some p := by
    rw [parent?, h.1]
    exact h.2
  have hM := hnew "M" (by decide)
  have hP := hnew "P" (by decide)
  have hC := hnew "C" (by decide)
  have hD := hnew "D" (by decide)
  refine ⟨⟨by simp [Operation.Fits], by simp [Operation.Fits], ?_, ⟨by simp, fun s hs => ⟨"P", hs ▸ ?_⟩⟩,
    ⟨by simp, fun s hs => ⟨"P", hs ▸ ?_⟩⟩, ?_, trivial⟩, ho ?_, ho ?_, ?_⟩ <;>
  simp [twice, Operation.apply, Operation.Fits, ClassTable.define, lookup?, info, insert, includeModule,
    modify, Std.HashMap.getElem?_insert, Std.HashMap.getElem_insert, Array.getElem_push, Array.getElem_modify,
    Nat.add_assoc, addNew, Except.toOption, hM, hP, hC, hD]

/-! ### Method tables -/

/-- On the way through the ancestors of a class, `c` comes before any other class that has the method. -/
def ReachesFirst (t : ClassTable) (id : ClassId) (name : String) (c : ClassId) : Prop :=
  (t.ancestors id).find? (fun b => b == c || (t.info b).methods.contains name) = some c

instance : Decidable (t.ReachesFirst id name c) := inferInstanceAs (Decidable (_ = _))

lemma ancestors_eq_of_alike (hsize : t'.classes.size = t.classes.size) (hn : t'.byName = t.byName)
    (hin : ∀ i, (t.info i).Alike (t'.info i))
    (hincludes : ∀ i, (t'.info i).includes = (t.info i).includes) (id : ClassId) :
    t'.ancestors id = t.ancestors id := by
  have hparent i : t'.parent? i = t.parent? i := by
    simp only [parent?, lookup?, hn, fun i => (hin i).kind, fun i => (hin i).superclass,
      fun i => (hin i).owner, fun i => (hin i).metaclass]
  have hf n cur out : t'.ancestorsFrom n cur out = t.ancestorsFrom n cur out := by
    fun_induction ancestorsFrom t n cur out with
    | case1 | case2 => rw [ancestorsFrom]
    | case3 n id out hmem => rw [ancestorsFrom, if_pos hmem]
    | case4 n id out hmem ih => rw [ancestorsFrom, if_neg hmem, hparent, hincludes, ih]
  rw [ancestors, ancestors, hsize, hf]

lemma methods_defineMethod (hc : c < t.classes.size) (b : ClassId) (other : String) :
    ((t.defineMethod c name label).info b).methods[other]? =
      if b = c ∧ other = name then some label else (t.info b).methods[other]? := by
  have hin : (t.defineMethod c name label).info b = _ := info_modify t c _ b
  rw [hin]
  by_cases hb : b = c
  · subst hb
    simp [hc, Std.TreeMap.getElem?_insert, eq_comm (a := other)]
  · simp [hb]

lemma methodAmong?_cons (b : ClassId) (ids : List ClassId) :
    t.methodAmong? (b :: ids) name = (t.info b).methods[name]?.or (t.methodAmong? ids name) := by
  rw [methodAmong?, List.findSome?_cons]
  cases (t.info b).methods[name]? <;> rfl

/-- The classes before `c` still have their methods, and behind it nothing is looked for. -/
lemma methodAmong?_defineMethod (hc : c < t.classes.size) (ids : List ClassId) (other : String) :
    (t.defineMethod c name label).methodAmong? ids other =
      if other = name ∧ ids.find? (fun b => b == c || (t.info b).methods.contains name) = some c then
        some label
      else t.methodAmong? ids other := by
  induction ids with
  | nil => simp [methodAmong?]
  | cons b ids ih =>
    rw [methodAmong?_cons, methodAmong?_cons, methods_defineMethod hc, ih, List.find?_cons,
      Std.TreeMap.contains_eq_isSome_getElem?]
    by_cases hn : other = name
    · subst hn
      by_cases hb : b = c
      · simp [hb]
      · have hne : (b == c) = false := beq_eq_false_iff_ne.mpr hb
        cases hm : (t.info b).methods[other]? <;> simp [hb, hne]
    · simp [hn]

lemma findMethod?_defineMethod (hc : c < t.classes.size) (id : ClassId) (other : String) :
    (t.defineMethod c name label).findMethod? id other =
      if other = name ∧ t.ReachesFirst id name c then some label else t.findMethod? id other := by
  have hin i : (t.defineMethod c name label).info i = _ := info_modify t c _ i
  have ha : (t.defineMethod c name label).ancestors id = t.ancestors id := by
    have hsize : (t.defineMethod c name label).classes.size = t.classes.size := by
      simp [defineMethod, modify]
    refine ancestors_eq_of_alike hsize rfl (fun i => ?_) (fun i => ?_) id
    · rw [hin]
      split
      · exact ⟨rfl, rfl, rfl, rfl, rfl, rfl, rfl, List.Subset.refl _⟩
      · exact .refl _
    · rw [hin]
      split <;> rfl
  rw [findMethod?, ha, methodAmong?_defineMethod hc]
  rfl

/-- Names and places belong together, the reserved names come first, and a place that is given never
changes. At the place of a name stands the method of the first ancestor that has one. A method that a
class gets, by a definition or as a second name of another one, shows in exactly the classes that come to
this class before any other that has a method of the name, at this name's place. -/
theorem dispatch_coherent (ops : List Operation) :
    let t := ops.foldl Operation.apply initial
    (∀ name k, t.slots.get? name = some k ↔ t.slots.names[k]? = some name) ∧
    reserved <+: t.slots.names.toList ∧
    (∀ (more : List Operation) name k, t.slots.get? name = some k →
      (more.foldl Operation.apply t).slots.get? name = some k) ∧
    (∀ id name k, t.slots.get? name = some k → (t.vtable id)[k]? = some (t.findMethod? id name)) ∧
    (∀ id name label, t.findMethod? id name = some label ↔
      ∃ before c after, t.ancestors id = before ++ c :: after ∧ (t.info c).methods[name]? = some label ∧
        ∀ b ∈ before, (t.info b).methods[name]? = none) ∧
    ∀ (op : Operation) c name label, c < t.classes.size → op.Gives t c name label →
      ∀ id other k, (op.apply t).slots.get? other = some k → ((op.apply t).vtable id)[k]? =
          some (if other = name ∧ t.ReachesFirst id name c then some label else t.findMethod? id other) := by
  intro t
  have hgrows := grows_slots_initial.trans (Operation.grows_foldl ops initial)
  have hregular := isRegular_initial.of_grows hgrows
  have hentry {t : ClassTable} (h : t.slots.IsRegular) (id : ClassId) {name : String} {k : Nat}
      (hk : t.slots.get? name = some k) : (t.vtable id)[k]? = some (t.findMethod? id name) := by
    rw [vtable, List.getElem?_map, Array.getElem?_toList, (h name k).mp hk]
    rfl
  refine ⟨hregular, names_initial ▸ hgrows.names_prefix, fun more name k => (Operation.grows_foldl more t).get?,
    fun id name k => hentry hregular id, fun id name label => ?_, fun op c name label hc hop id other k hk => ?_⟩
  · exact List.findSome?_eq_some_iff
  · rw [hentry (hregular.of_grows (Operation.grows_apply t op)) id hk, Operation.apply_of_gives hop,
      findMethod?_defineMethod hc]

/-- A method of a class shows in a subclass, whatever another subclass includes. -/
theorem dispatch_coherent_subclass :
    let k := initial.classes.size
    let t := twice.foldl Operation.apply initial
    let t' := (Operation.method (k + 2) "greet" "__method_P_greet").apply t
    ∃ place, t'.slots.get? "greet" = some place ∧ t.ReachesFirst (k + 6) "greet" (k + 2) ∧
      (t'.vtable (k + 6))[place]? = some (some "__method_P_greet") := by
  intro k t t'
  obtain ⟨horderly, -, hparent, -, -, hincludes, hmethods, hsize⟩ := twice_spec (k := k) (t := t) rfl rfl
  have hfirst : t.ReachesFirst (k + 6) "greet" (k + 2) := by
    obtain ⟨rest, hrest, -⟩ := ancestors_eq_cons t (k + 2)
    have hline : t.Lined := Operation.lined_foldl lined_initial horderly
    rw [ReachesFirst, hline.ancestors_eq hparent (by simp [hincludes]), hincludes, hrest]
    simp [hmethods]
  have hplace (t : ClassTable) : ((t.defineMethod (k + 2) "greet" "__method_P_greet").slots.get? "greet").isSome := by
    simp [defineMethod, get?_insert]
  obtain ⟨place, hplace⟩ : ∃ place, t'.slots.get? "greet" = some place :=
    Option.isSome_iff_exists.mp (hplace t)
  refine ⟨place, hplace, hfirst, ?_⟩
  have h := (dispatch_coherent twice).2.2.2.2.2 (.method (k + 2) "greet" "__method_P_greet") (k + 2) "greet"
    "__method_P_greet" (by rw [hsize]; omega) (.inl rfl) (k + 6) "greet" place hplace
  rwa [if_pos ⟨rfl, hfirst⟩] at h

/-! ### `super` -/

/-- The ancestors of a class end with those of its parent exactly if it includes no module that is among
them. If this holds for all classes from a subclass up to the class that a method is defined in, `super`
in this method finds for an instance of the subclass what stands behind the class among its ancestors. -/
theorem super_continues (ops : List Operation) (h : Operation.Orderly initial ops) :
    let t := ops.foldl Operation.apply initial
    (∀ c p, t.parent? c = some p → p ∉ (t.info c).includes →
      (t.ancestors p <:+ t.ancestors c ↔ ∀ m ∈ (t.info c).includes, m ∉ t.ancestors p)) ∧
    ∀ d c, Relation.ReflTransGen
        (fun d p => t.parent? d = some p ∧ ∀ m ∈ (t.info d).includes, m ∉ t.ancestors p) d c →
      t.ancestors c <:+ t.ancestors d ∧
      ∀ name, t.methodAmong? ((t.ancestors d).dropWhile (· != c)).tail name =
        t.methodAmong? (t.ancestors c).tail name := by
  intro t
  have hline : t.Lined := Operation.lined_foldl lined_initial h
  refine ⟨fun c p hp hself => hline.suffix_ancestors_iff hp hself, fun d c hway => ?_⟩
  obtain ⟨hsuffix, hbehind⟩ := hline.continues hway
  exact ⟨hsuffix, fun name => by rw [hbehind]⟩

/-- The ancestors of the class are those of the second subclass behind itself, but not of the first. -/
theorem super_continues_twice :
    let k := initial.classes.size
    let t := twice.foldl Operation.apply initial
    Operation.Orderly initial twice ∧ t.ancestors (k + 2) <:+ t.ancestors (k + 6) ∧
      ¬ t.ancestors (k + 2) <:+ t.ancestors (k + 4) := by
  intro k t
  obtain ⟨horderly, hfirst, hsecond, hmodules, hagain, hnone, -⟩ := twice_spec (k := k) (t := t) rfl rfl
  obtain ⟨hiff, -⟩ := super_continues twice horderly
  refine ⟨horderly, (hiff _ _ hsecond (by simp [t, hnone])).mpr (by simp [t, hnone]), fun hsuffix => ?_⟩
  obtain ⟨-, -, hmem⟩ := ancestors_eq_cons t (k + 2)
  exact (hiff _ _ hfirst (by simp [t, hagain])).mp hsuffix k (by simp [t, hagain]) (hmem k (by simp [hmodules]))

/-- A module that a class and its subclass include moves out of the line of the class. -/
theorem not_suffix_of_module_twice :
    ¬ ∀ ops, Operation.Orderly initial ops → ∀ c p, (ops.foldl Operation.apply initial).parent? c = some p →
      (ops.foldl Operation.apply initial).ancestors p <:+ (ops.foldl Operation.apply initial).ancestors c := by
  intro h
  obtain ⟨horderly, hfirst, -, hmodules, hagain, -⟩ := twice_spec rfl rfl
  have hline := Operation.lined_foldl lined_initial horderly
  obtain ⟨-, -, hmem⟩ := ancestors_eq_cons (twice.foldl Operation.apply initial) (initial.classes.size + 2)
  exact (hline.suffix_ancestors_iff hfirst (by simp [hagain])).mp (h twice horderly _ _ hfirst)
    initial.classes.size (by simp [hagain]) (hmem _ (by simp [hmodules]))

end ClassTable

end Garnet
