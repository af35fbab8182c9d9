import Garnet.Proofs.Storage.Resolved

/-!
# Classes are known before names are resolved

Collecting a unit visits whatever is visited again when its names are resolved. So every class of the
unit is known by then, and since a class is named by a path of constants, the names of all classes start
with a capital letter.
-/

namespace Garnet

variable {name : String} {id : ClassId}

open List Resolver Garnet.Tree Node ClassTable VarName

namespace Resolver

/-- The names of classes start with a capital letter. -/
def Capital (r : Resolver) : Prop :=
  ∀ {name : String} {i : ClassId}, r.classes.lookup? name = some i → isConstant name

/-- A later state while a unit is collected. -/
structure Later (r r' : Resolver) : Prop where
  capital : r'.Capital
  slots : r.classes.slots.Grows r'.classes.slots
  classSites : ∀ key : SiteKey, (r.classSites[key]?).isSome → (r'.classSites[key]?).isSome
  methodSites : ∀ key : SiteKey, key.unit ≠ r.unit → r'.methodSites[key]? = r.methodSites[key]?
  unit : r'.unit = r.unit

variable {r r' r'' : Resolver}

lemma Later.refl (h : r.Capital) : r.Later r := ⟨h, .refl _, fun _ h => h, fun _ _ => rfl, rfl⟩

lemma Later.trans (h : r.Later r') (h' : r'.Later r'') : r.Later r'' where
  capital := h'.capital
  slots := h.slots.trans h'.slots
  classSites key hkey := h'.classSites key (h.classSites key hkey)
  methodSites key hkey := (h'.methodSites key (h.unit ▸ hkey)).trans (h.methodSites key hkey)
  unit := h'.unit.trans h.unit

lemma isConstant_append (h : isConstant name) (rest : String) :
    isConstant (name ++ rest) := by
  rw [isConstant, String.toList_append]
  rw [isConstant] at h
  cases hn : name.toList with
  | nil =>
    rw [hn] at h
    cases h
  | cons c cs =>
    rwa [hn] at h

lemma Capital.info (hr : r.Capital) (h : r.classes.IsNamed id name) :
    isConstant (r.classes.info id).name :=
  h.name_eq ▸ hr h.lookup

end Resolver

lemma Storage.Known.mono {r r' : Resolver} {e : Tree} (h : Known r e) (hu : r'.unit = r.unit)
    (hs : ∀ key : SiteKey, (r.classSites[key]?).isSome → (r'.classSites[key]?).isSome) :
    Known r' e := by
  induction h with
  | leaf hl => exact .leaf hl
  | node hn _ ih =>
    refine .node (fun htag => ?_) ih
    rw [hu]
    exact hs _ (hn htag)

/-! ### Names of classes -/

section

variable {r r' : Resolver} {ctx : Context} {span : Span} {n : Node}

lemma Tag.isOpen_of_isClass {t : Tag} (h : t.isClass) : t.isOpen := by
  cases t <;> first | rfl | cases h

lemma isConstantPath_of_isClass (h : n.tree.IsLowered) (htag : n.tag.isClass) :
    (n.child 0).isConstantPath := by
  have ho := Tag.isOpen_of_isClass htag
  have hc := namesConstant_of_isFormed h.pruned.1.formed
  rw [namesConstant, Bool.and_eq_true] at hc
  have hp : (n.child 0).prune.isConstantPath := by
    rw [← child_pruned ho]
    simpa [pruned, htag] using hc.1
  cases hchi : n.child 0 with
  | node tag span id children =>
    rw [hchi] at hp
    cases tag <;> exact hp
  | _ =>
    rwa [hchi] at hp

lemma isConstant_of_topPath (h : n.tree.IsLowered) (htag : n.tag = .topPath) :
    VarName.isConstant ((n.name? 0).getD "") := by
  have ho : n.tag.isOpen := htag ▸ rfl
  have hcon := Node.namesConstant_of_isFormed h.pruned.1.formed
  rw [Node.namesConstant, Bool.and_eq_true] at hcon
  have hn : (n.pruned.name? 0).any VarName.isConstant := by simpa [Node.pruned, htag] using hcon.2
  rw [Node.name?, Node.child_pruned ho] at hn
  rw [Node.name?]
  cases hc : n.child 0 with
  | name v =>
    rwa [hc] at hn
  | node tag span id children =>
    rw [hc] at hn
    cases tag <;> cases hn
  | _ =>
    rw [hc] at hn
    cases hn

lemma isConstant_constantName (hr : r.Capital) {ns : Option ClassId}
    (hns : ∀ id ∈ ns, ∃ name, r.classes.IsNamed id name) (hn : isConstant name) :
    isConstant (r.constantName ns name) := by
  cases ns with
  | none => exact hn
  | some id =>
    obtain ⟨cls, hcls⟩ := hns id rfl
    rw [constantName, String.append_assoc]
    exact isConstant_append (hr.info hcls) _

lemma isConstant_definedName (hs : r.Sound) (hctx : ctx.Within r.classes) (hr : r.Capital) {path : Tree}
    (hp : path.isConstantPath) (hl : path.IsLowered) (h : r.definedName ctx span path = .ok name) :
    isConstant name := by
  unfold definedName at h
  split at h
  · cases h
    refine isConstant_constantName hr (fun id hid => ?_) hp
    have ha : r.Admits (.constant (r.definingNamespace ctx) "") := definingNamespace_admits hctx
    exact ha id hid
  · cases h
    exact isConstant_of_topPath hl rfl
  · obtain ⟨c, hc, h⟩ := except_bind_eq_ok.mp h
    cases h
    obtain ⟨cls, hcls⟩ := classPath_spec hc
    rw [String.append_assoc]
    exact isConstant_append (hr.info (hs.apart.regular.named hcls)) _
  · cases h

end

/-! ### The walk -/

section

variable {r r' : Resolver} {ctx : Context} {n : Node} {es : List Tree}

lemma Enters.later (h : Enters ctx r r') (hr : r.Capital) : r.Later r' where
  capital hlookup := hr (by rwa [lookup?, h.names] at hlookup)
  slots := h.slots
  classSites key hkey := by rwa [h.classSites]
  methodSites key _ := by rw [h.methodSites]
  unit := h.unit

lemma later_addClass {kind : ClassKind} {superclass : Option ClassId} {t : ClassTable} (hr : r.Capital)
    (hn : isConstant name) (hd : r.classes.define name kind superclass = .ok (id, t))
    (labels : LabelTable) (node : Nat) :
    r.Later (r.addClass t labels node id) := by
  refine ⟨fun {other id'} hlookup => ?_, ?_, fun key hkey => ?_, fun _ _ => rfl, rfl⟩
  · by_cases ho : other = name
    · exact ho ▸ hn
    · rcases define_cases hd with ⟨-, rfl⟩ | ⟨parent, -, -, rfl, -⟩
      · exact hr hlookup
      · rw [addClass, lookup?_insert, if_neg (Ne.symm ho)] at hlookup
        exact hr hlookup
  · rcases define_cases hd with ⟨-, rfl⟩ | ⟨parent, -, -, rfl, -⟩ <;> exact .refl _
  · rw [addClass, Std.HashMap.getElem?_insert]
    split
    · rfl
    · exact hkey

lemma later_addMethod (hr : r.Capital) (labels : LabelTable) (node : Nat) (name : String)
    (owner : Option ClassId) (install : Install) :
    r.Later (r.addMethod labels node name owner install) := by
  refine ⟨fun {other id} hlookup => hr (i := id) ?_, ?_, fun _ hkey => hkey, fun key hkey => ?_, rfl⟩
  · cases owner <;> exact hlookup
  · cases owner <;> exact SlotTable.grows_insert _ _
  · refine Std.HashMap.getElem?_insert.trans (if_neg fun heq => hkey ?_)
    rw [← beq_iff_eq.mp heq]

lemma Tag.isDefinition_of_isClass {t : Tag} (h : t.isClass) : t.isDefinition := by
  cases t <;> first | rfl | cases h

lemma Tree.IsLowered.shown (hn : n.tree.IsLowered) : ∀ c ∈ n.shown, c.IsLowered := by
  cases ho : n.tag.isOpen with
  | true =>
    intro c hc
    obtain ⟨ks, -, hks⟩ := n.exists_shown
    rw [hks] at hc
    obtain ⟨k, -, rfl⟩ := mem_map.mp hc
    exact hn.child ho k
  | false =>
    obtain ⟨tag, span, id, children⟩ := n
    cases tag with
    | assign =>
      obtain ⟨target, value, rfl, ht, hv⟩ := hn.assign rfl
      intro c hc
      rcases mem_append.mp hc with hc | hc
      · split at hc
        · cases hc
        · exact mem_singleton.mp hc ▸ ht
      · exact mem_singleton.mp hc ▸ hv
    | defined => exact nofun
    | _ => cases ho

lemma Visits.later (h : Visits ctx es r r') (hs : r.Sound) (hctx : ctx.Within r.classes)
    (hr : r.Capital) (hes : ∀ e ∈ es, e.IsLowered) :
    r.Later r' ∧ ∀ e ∈ es, Storage.Known r' e := by
  induction h with
  | nil => exact ⟨.refl hr, by simp⟩
  | leaf hle => exact ⟨.refl hr, forall_mem_singleton.mpr (.leaf hle)⟩
  | name h => exact ⟨(enters_variableName h).later hr, forall_mem_singleton.mpr (.leaf rfl)⟩
  | cons first _ ih ih' =>
    rw [forall_mem_cons] at hes ⊢
    obtain ⟨hf, hk⟩ := ih hs hctx hr (forall_mem_singleton.mpr hes.1)
    obtain ⟨hs', hctx'⟩ := (first.changes hs hctx).within hs hctx
    obtain ⟨hre, hk'⟩ := ih' hs' hctx' hf.capital hes.2
    exact ⟨hf.trans hre, (forall_mem_singleton.mp hk).mono hre.unit hre.classSites, hk'⟩
  | @node _ n _ _ _ hdef henters _ _ ih =>
    have hn := forall_mem_singleton.mp hes
    obtain ⟨hs', hctx'⟩ := (henters.changes hs hctx).within hs hctx
    have hf := henters.later hr
    obtain ⟨hre, hk⟩ := ih hs' hctx' hf.capital hn.shown
    refine ⟨hf.trans hre, forall_mem_singleton.mpr (.node (fun hc => ?_) hk)⟩
    rw [Tag.isDefinition_of_isClass hc] at hdef
    cases hdef
  | @cls ctx n _ _ _ id t labels r _ htag hki hna hsup hd hl _ ih =>
    have hn := forall_mem_singleton.mp hes
    have ho := Tag.isOpen_of_isClass htag
    have hcon := isConstant_definedName hs hctx hr (isConstantPath_of_isClass hn htag)
      (hn.child ho 0) hna
    have hf := later_addClass hr hcon hd labels n.id
    have hste := changes_addClass hki hsup hd hl n.id
    obtain ⟨hs', hctx'⟩ := hste.within hs hctx
    obtain ⟨hre, hk⟩ := ih hs' (hctx'.body
      (define_spec hs.apart.regular hki hsup hd).2.2) hf.capital hn.shown
    refine ⟨hf.trans hre, forall_mem_singleton.mpr (.node (fun _ => ?_) hk)⟩
    rw [hre.unit]
    exact hre.classSites _ (by simp [addClass])
  | @singletonClass _ n _ _ _ htag object _ ih ih' =>
    have hn := forall_mem_singleton.mp hes
    have ho : n.tag.isOpen := htag ▸ rfl
    obtain ⟨hf, hk⟩ := ih hs hctx hr (forall_mem_singleton.mpr (hn.child ho 0))
    obtain ⟨hs', hctx'⟩ := (object.changes hs hctx).within hs hctx
    obtain ⟨hre, hk'⟩ := ih' hs' (hctx'.object hs' _) hf.capital
      (forall_mem_singleton.mpr (hn.child ho 1))
    refine ⟨hf.trans hre, forall_mem_singleton.mpr
      (.node (fun hc => by rw [htag] at hc; cases hc) ?_)⟩
    rw [shown, htag]
    exact forall_mem_cons.mpr ⟨(forall_mem_singleton.mp hk).mono hre.unit hre.classSites, hk'⟩
  | @method _ n i objects name owner install labels _ s _ htag before _ hv hl _ ih ih' =>
    have hn := forall_mem_singleton.mp hes
    have hsho : n.shown = objects ++ [n.child (i + 2)] := by
      rcases htag with ⟨htag, rfl, rfl⟩ | ⟨htag, rfl, rfl⟩ <;> rw [shown, htag] <;> rfl
    have hlow := hn.shown
    rw [hsho, forall_mem_append] at hlow
    obtain ⟨hf, hk⟩ := ih hs hctx hr hlow.1
    obtain ⟨hs', hctx'⟩ := (before.changes hs hctx).within hs hctx
    have hm : s.Change (s.addMethod labels n.id name owner install) :=
      .method _ (hv hs' hctx') hl
    obtain ⟨hs'', hg⟩ := hm.sound hs'
    have hsec := later_addMethod hf.capital labels n.id name owner install
    obtain ⟨hre, hk'⟩ := ih' hs'' ((hctx'.mono hg.classes).method hs''
      (fun id hid => Nat.lt_of_lt_of_le (hv hs' hctx' id hid) hg.classes.size_le) _ _)
      hsec.capital hlow.2
    have hla := hsec.trans hre
    refine ⟨hf.trans hla, forall_mem_singleton.mpr (.node (fun hc => ?_) ?_)⟩
    · rcases htag with ⟨htag, -⟩ | ⟨htag, -⟩ <;> rw [htag] at hc <;> cases hc
    · rw [hsho]
      exact forall_mem_append.mpr ⟨fun e he => (hk e he).mono hla.unit hla.classSites, hk'⟩

end

/-! ### Units -/

lemma Resolver.capital_start (labels : LabelTable) : (start labels).Capital := by
  intro name id h
  rw [classes_start] at h
  have hn := (holds_initial.mem name).mp (h ▸ rfl)
  have hall : (Builtin.classes.reverse.map BuiltinClass.name).all isConstant = true := by decide
  exact all_eq_true.mp hall name hn

end Garnet
