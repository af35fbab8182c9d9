import Garnet.Proofs.Class.Identity
import Mathlib.Data.List.Nodup
import Mathlib.Data.List.Perm.Subperm

/-!
# Lines of ancestors

The line of a class starts with the class and its modules. Superclasses are older than their subclasses and
a metaclass comes before all classes, so the line never comes back to where it was and goes on as the line
of the parent does, without the modules that are in it already. It ends with the whole line of the parent
exactly if there are none.
-/

namespace Garnet

open List

namespace ClassTable

variable {x id c p : ClassId} {t t' : ClassTable}

/-! ### Lists without repetition -/

section

variable {front out own : List ClassId}

lemma nodup_concat (h : out.Nodup) (hid : id ∉ out) : (out ++ [id]).Nodup :=
  nodup_append.mpr ⟨h, nodup_singleton id, by grind⟩

lemma mem_foldl_addNew (own : List ClassId) : x ∈ own.foldl addNew out ↔ x ∈ out ∨ x ∈ own := by
  induction own generalizing out with
  | nil => simp
  | cons m own ih =>
    rw [foldl_cons, addNew]
    split
    · rename_i hm
      grind
    · grind

lemma foldl_addNew_append (h : ∀ m ∈ own, m ∉ front) :
    own.foldl addNew (front ++ out) = front ++ own.foldl addNew out := by
  induction own generalizing out with
  | nil => rfl
  | cons m own ih =>
    rw [forall_mem_cons] at h
    have hs : addNew (front ++ out) m = front ++ addNew out m := by
      simp only [addNew, contains_iff_mem, mem_append, h.1, false_or]
      split <;> simp
    rw [foldl_cons, hs, ih h.2, foldl_cons]

lemma nodup_foldl_addNew (own : List ClassId) (h : out.Nodup) :
    (own.foldl addNew out).Nodup ∧ out <+: own.foldl addNew out := by
  induction own generalizing out with
  | nil => exact ⟨h, prefix_refl _⟩
  | cons m own ih =>
    rw [foldl_cons, addNew]
    split
    · exact ih h
    · rename_i hm
      rw [contains_iff_mem] at hm
      obtain ⟨hn, hb⟩ := ih (nodup_concat h hm)
      exact ⟨hn, (prefix_append out [m]).trans hb⟩

lemma foldl_addNew_of_nodup (out own : List ClassId) (h : (out ++ own).Nodup) : own.foldl addNew out = out ++ own := by
  induction own generalizing out with
  | nil => simp
  | cons m own ih =>
    have hm : m ∉ out := by grind
    rw [foldl_cons, addNew, if_neg (by simpa using hm), ih _ (by simpa using h), append_assoc]
    rfl

lemma nodup_ancestorsFrom (n : Nat) (cur : Option ClassId) (h : out.Nodup) :
    (t.ancestorsFrom n cur out).Nodup ∧ out <+: t.ancestorsFrom n cur out := by
  fun_induction ancestorsFrom t n cur out with
  | case1 | case2 | case3 => exact ⟨h, prefix_refl _⟩
  | case4 n id out hmem ih =>
    rw [contains_iff_mem] at hmem
    obtain ⟨hn, hb⟩ := nodup_foldl_addNew (t.info id).includes.reverse (nodup_concat h hmem)
    exact ⟨(ih hn).1, (prefix_append out [id]).trans (hb.trans (ih hn).2)⟩

lemma nodup_ancestors (t : ClassTable) (id : ClassId) : (t.ancestors id).Nodup :=
  (nodup_ancestorsFrom _ _ nodup_nil).1

lemma ancestors_eq_cons (t : ClassTable) (id : ClassId) :
    ∃ rest, t.ancestors id = id :: rest ∧ ∀ m ∈ (t.info id).includes, m ∈ t.ancestors id := by
  have hf := nodup_foldl_addNew (t.info id).includes.reverse (nodup_singleton id)
  have hb := (nodup_ancestorsFrom (t := t) t.classes.size (t.parent? id) hf.1).2
  rw [ancestors, ancestorsFrom]
  obtain ⟨rest, hr⟩ := hf.2.trans hb
  exact ⟨rest, hr.symm, fun m hm => hb.subset ((mem_foldl_addNew _).mpr (.inr (mem_reverse.mpr hm)))⟩

/-- What stands in front does not matter if it does not come again. -/
lemma ancestorsFrom_append (front : List ClassId) (n : Nat) (cur : Option ClassId) (hout : out.Nodup)
    (h : ∀ x ∈ t.ancestorsFrom n cur out, x ∉ front) :
    t.ancestorsFrom n cur (front ++ out) = front ++ t.ancestorsFrom n cur out := by
  fun_induction ancestorsFrom t n cur out with
  | case1 | case2 => rw [ancestorsFrom]
  | case3 n id out hmem => rw [ancestorsFrom, if_pos (by simp_all)]
  | case4 n id out hmem ih =>
    rw [contains_iff_mem] at hmem
    have hn := (nodup_foldl_addNew (t.info id).includes.reverse (nodup_concat hout hmem)).1
    have hnew x (hx : x = id ∨ x ∈ (t.info id).includes.reverse) : x ∉ front := by
      refine h x ((nodup_ancestorsFrom n _ hn).2.subset ((mem_foldl_addNew _).mpr ?_))
      exact hx.imp_left fun heq => by simp [heq]
    have hf : id ∉ front ++ out := by simp [hnew id (.inl rfl), hmem]
    rw [ancestorsFrom, if_neg (by simpa using hf), append_assoc,
      foldl_addNew_append fun m hm => hnew m (.inr hm), ih hn h]

end

/-! ### Superclasses and modules -/

def rank (t : ClassTable) (id : ClassId) : Nat :=
  if (t.info id).kind = .metaclass then t.classes.size + id else id

/-- The line of a class goes down: superclasses are older, and the metaclasses come before the classes. -/
lemma Regular.rank_parent? (h : t.Regular) (hp : t.parent? c = some p) :
    c < t.classes.size ∧ p < t.classes.size ∧ t.rank p < t.rank c ∧ (t.info c).kind ≠ .mixin := by
  have hc : c < t.classes.size := by
    by_contra hnot
    rw [parent?, info, Array.getElem?_eq_none (Nat.le_of_not_lt hnot)] at hp
    cases hp
  obtain ⟨name, hn | ⟨o, ho, hm⟩⟩ := h.cover c hc
  · have hsup : p ∈ (t.info c).superclass := by
      have hk := hn.kind_ne
      rw [parent?] at hp
      split at hp
      · exact hp
      · exact hp
      · contradiction
    obtain ⟨hlt, hord, hpla⟩ := h.older c hc p hsup
    refine ⟨hc, Nat.lt_trans hlt hc, ?_, by simp [hord]⟩
    simpa [rank, hpla, hord] using hlt
  · have hr : t.rank c = t.classes.size + c := by rw [rank, if_pos hm.kind_eq]
    have hk : (t.info c).kind ≠ .mixin := by simp [hm.kind_eq]
    simp only [parent?, hm.kind_eq, hm.owner_eq, Option.bind_eq_bind, Option.bind_some] at hp
    split at hp
    · rename_i s hs
      obtain ⟨hlt, -, hpla⟩ := h.older o ho.lt_size s hs
      obtain ⟨super, hsup | ⟨_, _, hsup⟩⟩ := h.cover s (Nat.lt_trans hlt ho.lt_size)
      · cases hsup.metaclass_eq.symm.trans hp
        have hpar := h.metaclass hsup.lookup
        refine ⟨hc, hpar.lt_size, ?_, hk⟩
        rw [hr, rank, if_pos hpar.kind_eq, hm.eq_succ]
        exact Nat.add_lt_add_left (Nat.succ_lt_succ hlt) _
      · exact absurd hsup.kind_eq hpla
    · have hpar := h.named hp
      refine ⟨hc, hpar.lt_size, ?_, hk⟩
      rw [hr, rank, if_neg hpar.kind_ne]
      exact Nat.lt_of_lt_of_le hpar.lt_size (Nat.le_add_right _ _)

lemma includes_insert (t : ClassTable) (name : String) (kind : ClassKind) (superclass : Option ClassId)
    (builtin : Bool) (i : ClassId) :
    ((t.insert name kind superclass builtin).2.info i).includes = (t.info i).includes := by
  rw [info, insert, info]
  rw [Array.getElem?_push, Array.getElem?_push, Array.size_push]
  split_ifs
  iterate 2
    rw [Array.getElem?_eq_none (by omega)]
    rfl
  · rfl

/-- A regular table in which classes include modules only, each of them once. -/
structure Lined (t : ClassTable) : Prop where
  regular : t.Regular
  includes : ∀ id, (t.info id).includes.Nodup ∧ ∀ m ∈ (t.info id).includes, (t.info m).kind = .mixin

lemma lt_size_of_mixin (h : (t.info id).kind = .mixin) : id < t.classes.size := by
  by_contra hnot
  rw [info, Array.getElem?_eq_none (Nat.le_of_not_lt hnot)] at h
  cases h

namespace Lined

variable {out : List ClassId}

variable (h : t.Lined)
include h

/-- A line goes on with modules and with classes that are lower than its first one. -/
lemma mem_ancestorsFrom {n : Nat} (hx : x ∈ t.ancestorsFrom n (some p) out) :
    x ∈ out ∨ t.rank x ≤ t.rank p ∨ (t.info x).kind = .mixin := by
  induction n generalizing p out with
  | zero => exact .inl hx
  | succ n ih =>
    rw [ancestorsFrom] at hx
    split at hx
    · exact .inl hx
    · have hs (hmem : x ∈ (t.info p).includes.reverse.foldl addNew (out ++ [p])) :
          x ∈ out ∨ t.rank x ≤ t.rank p ∨ (t.info x).kind = .mixin := by
        rcases (mem_foldl_addNew _).mp hmem with hmem | hmem
        · rcases mem_append.mp hmem with hmem | hmem
          · exact .inl hmem
          · exact .inr (.inl (Nat.le_of_eq (by rw [mem_singleton.mp hmem])))
        · exact .inr (.inr ((h.includes p).2 x (mem_reverse.mp hmem)))
      cases hq : t.parent? p with
      | none =>
        rw [hq, ancestorsFrom] at hx
        exact hs hx
      | some q =>
        rw [hq] at hx
        have hlt := (h.regular.rank_parent? hq).2.2.1
        exact (ih hx).elim hs fun hlow => .inr (hlow.imp_left fun hle => Nat.le_trans hle (Nat.le_of_lt hlt))

/-- The line does not depend on how far it may go, as long as there are classes left. -/
lemma ancestorsFrom_eq {n n' : Nat} {cur : Option ClassId} (hout : out.Nodup)
    (hlt : ∀ x ∈ out, x < t.classes.size) (hcur : ∀ x ∈ cur, x < t.classes.size)
    (hn : t.classes.size < n + out.length) (hn' : t.classes.size < n' + out.length) :
    t.ancestorsFrom n cur out = t.ancestorsFrom n' cur out := by
  -- the line holds each class once, so it is no longer than the table
  have hl {out : List ClassId} (hout : out.Nodup) (hlt : ∀ x ∈ out, x < t.classes.size) :
      out.length ≤ t.classes.size := by
    simpa using (hout.subperm fun x hx => mem_range.mpr (hlt x hx)).length_le
  induction n generalizing n' cur out with
  | zero => exact absurd (hl hout hlt) (by omega)
  | succ n ih =>
    obtain ⟨n', rfl⟩ := Nat.exists_eq_add_one.mpr (show 0 < n' by have := hl hout hlt; omega)
    cases cur with
    | none => rw [ancestorsFrom, ancestorsFrom]
    | some p =>
      rw [ancestorsFrom, ancestorsFrom]
      split
      · rfl
      · rename_i hmem
        rw [contains_iff_mem] at hmem
        obtain ⟨hnod, hb⟩ := nodup_foldl_addNew (t.info p).includes.reverse (nodup_concat hout hmem)
        have hle := hb.length_le
        rw [length_append, length_singleton] at hle
        refine ih hnod (fun x hx => ?_) (fun x hx => (h.regular.rank_parent? hx).2.1) (by omega) (by omega)
        rcases (mem_foldl_addNew _).mp hx with hx | hx
        · rcases mem_append.mp hx with hx | hx
          · exact hlt x hx
          · exact mem_singleton.mp hx ▸ hcur p rfl
        · exact lt_size_of_mixin ((h.includes p).2 x (mem_reverse.mp hx))

/-- The line of a class starts with it and its modules, and goes on as from its parent. -/
lemma ancestors_eq_from (hp : t.parent? c = some p) :
    t.ancestors c = t.ancestorsFrom (t.classes.size + 1) (some p) (c :: (t.info c).includes.reverse) ∧
    (c :: (t.info c).includes.reverse).Nodup ∧ c ∉ t.ancestors p := by
  obtain ⟨hc, hlt, hr, hk⟩ := h.regular.rank_parent? hp
  have hn : (c :: (t.info c).includes.reverse).Nodup := by
    refine nodup_cons.mpr ⟨fun hmem => hk ?_, nodup_reverse.mpr (h.includes c).1⟩
    exact (h.includes c).2 c (mem_reverse.mp hmem)
  refine ⟨?_, hn, fun hmem => ?_⟩
  · have hf := foldl_addNew_of_nodup [c] (t.info c).includes.reverse hn
    rw [ancestors, ancestorsFrom, hp, nil_append, hf]
    refine h.ancestorsFrom_eq hn (forall_mem_cons.mpr ⟨hc, fun m hm => ?_⟩)
      (fun x hx => Option.some.inj hx ▸ hlt) (by simp) (by simp; omega)
    exact lt_size_of_mixin ((h.includes c).2 m (mem_reverse.mp hm))
  · rcases h.mem_ancestorsFrom hmem with hmem | hle | hmix
    · cases hmem
    · omega
    · exact hk hmix

lemma ancestors_eq (hp : t.parent? c = some p) (hown : ∀ m ∈ (t.info c).includes, m ∉ t.ancestors p) :
    t.ancestors c = c :: (t.info c).includes.reverse ++ t.ancestors p := by
  obtain ⟨heq, -, hnot⟩ := h.ancestors_eq_from hp
  have hf := ancestorsFrom_append (t := t) (c :: (t.info c).includes.reverse)
    (t.classes.size + 1) (some p) nodup_nil fun x hx => ?_
  · rwa [append_nil, ← heq] at hf
  · rw [mem_cons, not_or, mem_reverse]
    exact ⟨fun hxc => hnot (hxc ▸ hx), fun hm => hown x hm hx⟩

/-- The line of a class ends with that of its parent as long as it includes no module of that line. -/
lemma suffix_ancestors_iff (hp : t.parent? c = some p) (hs : p ∉ (t.info c).includes) :
    t.ancestors p <:+ t.ancestors c ↔ ∀ m ∈ (t.info c).includes, m ∉ t.ancestors p := by
  refine ⟨fun ⟨front, hf⟩ m hm hmem => ?_, fun hown => ?_⟩
  · -- behind the class and its modules comes the parent, so this is where the suffix starts
    obtain ⟨heq, hown, hnot⟩ := h.ancestors_eq_from hp
    obtain ⟨rest, hpar, -⟩ := ancestors_eq_cons t p
    have hpc : p ≠ c := fun hpc => hnot (hpc ▸ hpar ▸ mem_cons_self)
    obtain ⟨behind, hb⟩ : c :: (t.info c).includes.reverse ++ [p] <+: t.ancestors c := by
      have hnew : p ∉ c :: (t.info c).includes.reverse := by simp [hpc, hs]
      rw [heq, ancestorsFrom, if_neg (by simpa using hnew)]
      have hn := nodup_foldl_addNew (t.info p).includes.reverse (nodup_concat hown hnew)
      exact hn.2.trans (nodup_ancestorsFrom _ _ hn.1).2
    have hl := nodup_ancestors t c
    rw [append_assoc] at hb
    have hsta : c :: (t.info c).includes.reverse = front := by
      rw [← hb, nodup_append] at hl
      rw [← hb, hpar, eq_comm] at hf
      exact ((append_cons_inj_of_notMem (by simp [hpc, hs]) (nodup_cons.mp hl.2.1).1).mp hf).1
    rw [← hf, nodup_append, ← hsta] at hl
    exact hl.2.2 m (by simp [hm]) m hmem rfl
  · rw [h.ancestors_eq hp hown]
    exact suffix_append _ _

/-- Where no class on the way includes a module once more, the line of a subclass ends with that of the
class, and behind the class it goes on as that does. -/
lemma continues {d : ClassId} (hway : Relation.ReflTransGen
      (fun d p => t.parent? d = some p ∧ ∀ m ∈ (t.info d).includes, m ∉ t.ancestors p) d c) :
    t.ancestors c <:+ t.ancestors d ∧ ((t.ancestors d).dropWhile (· != c)).tail = (t.ancestors c).tail := by
  have hs : t.ancestors c <:+ t.ancestors d := by
    induction hway using Relation.ReflTransGen.head_induction_on with
    | refl => exact suffix_refl _
    | head hst _ ih => exact ih.trans (h.ancestors_eq hst.1 hst.2 ▸ suffix_append _ _)
  refine ⟨hs, ?_⟩
  obtain ⟨front, hf⟩ := hs
  obtain ⟨rest, hr, -⟩ := ancestors_eq_cons t c
  have hl := nodup_ancestors t d
  rw [← hf, nodup_append, hr] at hl
  rw [← hf, dropWhile_append_of_pos fun x hx => bne_iff_ne.mpr (hl.2.2 x hx c mem_cons_self),
    hr, dropWhile_cons_of_neg (by simp)]

lemma of_extends (hreg : t'.Regular) (hext : t.Extends t')
    (hinc : ∀ id, (t'.info id).includes = (t.info id).includes ∨
      ∃ m, (t'.info id).includes = addNew (t.info id).includes m ∧ (t.info m).kind = .mixin) : t'.Lined := by
  have hk {m} (hm : (t.info m).kind = .mixin) : (t'.info m).kind = .mixin :=
    (hext.info m (lt_size_of_mixin hm)).kind.trans hm
  refine ⟨hreg, fun id => ?_⟩
  obtain ⟨hn, hmix⟩ := h.includes id
  rcases hinc id with heq | ⟨m, heq, hm⟩
  · rw [heq]
    exact ⟨hn, fun m hm => hk (hmix m hm)⟩
  · rw [heq]
    refine ⟨(nodup_foldl_addNew [m] hn).1, fun x hx => hk ?_⟩
    rcases (mem_foldl_addNew [m]).mp hx with hx | hx
    · exact hmix x hx
    · exact mem_singleton.mp hx ▸ hm

lemma defineMethod (id : ClassId) (name label : String) : (t.defineMethod id name label).Lined :=
  h.of_extends (h.regular.defineMethod id name label) (extends_defineMethod t id name label) fun i => by
    refine .inl (congrArg ClassInfo.includes (info_modify t id _ i) |>.trans ?_)
    split <;> rfl

end Lined

lemma lined_initial : initial.Lined where
  regular := holds_initial.regular
  includes id := by
    rw [holds_initial.includes_eq_nil id]
    exact ⟨nodup_nil, by simp⟩

end ClassTable

end Garnet
