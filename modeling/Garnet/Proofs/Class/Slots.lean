import Garnet.Class.Builtin
import Mathlib.Data.List.Nodup

/-!
# Places of method names

Names only ever get new places, so whatever is done to the classes of a program, no name has two of
them.
-/

namespace Garnet

open SlotTable

namespace SlotTable

variable {t t' t'' : SlotTable}

/-- The place of a name is where the name stands. -/
def IsRegular (t : SlotTable) : Prop := ∀ name k, t.get? name = some k ↔ t.names[k]? = some name

def Grows (t t' : SlotTable) : Prop := ∃ names : List String, t' = names.foldl insert t

lemma Grows.refl (t : SlotTable) : t.Grows t := ⟨[], rfl⟩

lemma Grows.trans (h : t.Grows t') (h' : t'.Grows t'') : t.Grows t'' := by
  obtain ⟨names, rfl⟩ := h
  obtain ⟨names', rfl⟩ := h'
  exact ⟨names ++ names', (List.foldl_append ..).symm⟩

lemma grows_insert (t : SlotTable) (name : String) : t.Grows (t.insert name) := ⟨[name], rfl⟩

lemma IsRegular.nodup (h : t.IsRegular) : t.names.toList.Nodup := by
  refine List.nodup_iff_injective_getElem.mpr fun i j hij => Fin.ext ?_
  have hp (i : Fin t.names.toList.length) : t.get? (t.names.toList[i.1]) = some i.1 :=
    (h _ _).mpr (by simp)
  have hj := hp j
  rw [← show t.names.toList[i.1] = t.names.toList[j.1] from hij, hp i] at hj
  exact Option.some.inj hj

lemma get?_insert (t : SlotTable) (name other : String) : (t.insert name).get? other =
    (t.get? other).or (if other = name then some t.names.size else none) := by
  rw [insert]
  split
  · rename_i hold
    rw [Std.HashMap.contains_eq_isSome_getElem?] at hold
    split
    · subst other
      exact (Option.or_of_isSome hold).symm
    · rw [Option.or_none]
  · rename_i hnew
    rw [get?, Std.HashMap.getElem?_insert]
    by_cases h : other = name
    · subst other
      rw [get?, Std.HashMap.getElem?_eq_none (by simpa using hnew)]
      simp
    · simp [h, Ne.symm h, get?]

lemma IsRegular.insert (h : t.IsRegular) (name : String) : (t.insert name).IsRegular := by
  by_cases hold : t.index.contains name
  · rwa [SlotTable.insert, if_pos hold]
  · have hno : t.get? name = none := Std.HashMap.getElem?_eq_none (by simpa using hold)
    have hn : (t.insert name).names = t.names.push name := by rw [SlotTable.insert, if_neg hold]
    intro other k
    have hp := h other k
    rw [get?_insert, hn, Array.getElem?_push]
    by_cases ho : other = name <;> grind

lemma IsRegular.of_grows (h : t.IsRegular) (hg : t.Grows t') : t'.IsRegular := by
  obtain ⟨names, rfl⟩ := hg
  induction names generalizing t with
  | nil => exact h
  | cons name names ih => exact ih (h.insert name)

lemma Grows.get? (hg : t.Grows t') {name : String} {k : Nat} (hk : t.get? name = some k) :
    t'.get? name = some k := by
  obtain ⟨names, rfl⟩ := hg
  induction names generalizing t with
  | nil => exact hk
  | cons other names ih => exact ih (by rw [get?_insert, hk, Option.some_or])

lemma Grows.names_prefix (hg : t.Grows t') : t.names.toList <+: t'.names.toList := by
  obtain ⟨names, rfl⟩ := hg
  induction names generalizing t with
  | nil => exact List.prefix_refl _
  | cons name names ih =>
    refine List.IsPrefix.trans ?_ (ih (t := t.insert name))
    rw [insert]
    split
    · exact List.prefix_refl _
    · exact Array.toList_push ▸ List.prefix_append _ _

lemma isRegular_initial : initial.IsRegular :=
  IsRegular.of_grows (t := {}) (fun name k => by simp [get?]) ⟨reserved, rfl⟩

lemma names_initial : initial.names.toList = reserved := by simp [initial, reserved, insert]

end SlotTable

lemma ClassTable.grows_slots_initial : SlotTable.initial.Grows initial.slots := by
  have hfo {α : Type} {f : ClassTable → α → ClassTable}
      (hf : ∀ (t : ClassTable) a, t.slots.Grows (f t a).slots) (as : List α) (t : ClassTable) :
      t.slots.Grows (as.foldl f t).slots := by
    induction as generalizing t with
    | nil => exact .refl _
    | cons a as ih => exact (hf t a).trans (ih _)
  have hc (t : ClassTable) (c : BuiltinClass) : t.slots.Grows (Builtin.addClass t c).slots :=
    hfo (f := fun t v => t.addVariable _ v) (fun t _ => .refl t.slots) c.instanceVars
      (t.insert c.name c.kind (c.superclass.bind t.lookup?) true).2
  have hm (pick : ClassTable → ClassId → Option ClassId) (t : ClassTable)
      (entry : String × List String) : t.slots.Grows (Builtin.addMethodsOf pick t entry).slots := by
    rw [Builtin.addMethodsOf]
    split
    · exact hfo (f := fun t name => t.defineMethod _ name _)
        (fun t name => SlotTable.grows_insert t.slots name) entry.2 t
    · exact .refl _
  have hcla := hfo hc Builtin.classes .empty
  exact (hcla.trans (hfo (hm _) _ _)).trans (hfo (hm _) _ _)

end Garnet
