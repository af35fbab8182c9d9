import Garnet.Proofs.Label.Mangling

/-!
# Labels of paths

In the label of a class the parts of its name are joined by two underscores, which are also the label
of an underscore: `A::B` and `A_B` have the same label. What a label leaves open, the name decides:
two things with the same label and the same name are the same thing. The statements here are the parts
of this that are about texts alone. They rest on two counts: every part of a path that is joined to
the next one saves twelve characters, and underscores come in pairs.
-/

namespace Garnet

open List

namespace Label

variable {c : Char}

def pathChars : List Char → List Char
  | [] => []
  | ':' :: ':' :: rest => '_' :: '_' :: pathChars rest
  | c :: rest => mangleChar c ++ pathChars rest

def joints : List Char → Nat
  | [] => 0
  | ':' :: ':' :: rest => joints rest + 1
  | _ :: rest => joints rest

lemma pathParts_ne_nil (cs : List Char) : pathParts cs ≠ [] := by fun_cases pathParts cs <;> simp

lemma toList_ofPath (name : String) : (ofPath name).toList = pathChars name.toList := by
  have hp : ∀ cs : List Char,
      ['_', '_'].intercalate ((pathParts cs).map fun p => p.flatMap mangleChar) = pathChars cs := by
    intro cs
    fun_induction pathParts cs with
    | case1 => rfl
    | case2 rest ih =>
      rw [map_cons, intercalate_cons_of_ne_nil (by simp [pathParts_ne_nil]), ih, pathChars]
      rfl
    | case3 c rest hc hnil ih => exact absurd hnil (pathParts_ne_nil rest)
    | case4 c rest hc p ps hps ih =>
      rw [hps] at ih
      rw [pathChars, ← ih]
      · cases ps with
        | nil => simp
        | cons q qs => simp
      · exact hc
  rw [← hp, ofPath, String.toList_intercalate, map_map]
  congr 1
  refine map_congr_left fun p _ => ?_
  simp [toList_mangle]

/-! ### Counting -/

lemma count_pathChars (cs : List Char) : (pathChars cs).count '_' % 2 = 0 := by
  fun_induction pathChars cs with
  | case1 => rfl
  | case2 rest ih =>
    simp only [count_cons_self]
    omega
  | case3 c rest hc ih =>
    rw [count_append]
    rcases (reads_mangleChar c).count with h | h <;> omega

lemma length_pathChars (cs : List Char) :
    (pathChars cs).length + 12 * joints cs = (cs.flatMap mangleChar).length := by
  fun_induction pathChars cs with
  | case1 => rfl
  | case2 rest ih =>
    have hcol : (mangleChar ':').length = 7 := by decide
    simp only [joints, length_cons, flatMap_cons, length_append, hcol]
    omega
  | case3 c rest hc ih =>
    rw [joints, length_append, flatMap_cons, length_append]
    · omega
    · exact hc

lemma joints_cons_bounds (c : Char) : ∀ cs : List Char,
    joints cs ≤ joints (c :: cs) ∧ joints (c :: cs) ≤ joints cs + 1
  | [] => by simp [joints]
  | d :: rest => by
    by_cases h : c = ':' ∧ d = ':'
    · obtain ⟨rfl, rfl⟩ := h
      have hr := joints_cons_bounds ':' rest
      rw [joints.eq_2]
      omega
    · rw [joints.eq_3 c (d :: rest) fun r hc hd => h ⟨hc, head_eq_of_cons_eq hd⟩]
      omega

lemma joints_add_le (a b : List Char) : joints a + joints b ≤ joints (a ++ b) := by
  fun_induction joints a with
  | case1 => simp
  | case2 rest ih =>
    simp only [cons_append, joints]
    omega
  | case3 c rest hc ih => exact Nat.le_trans ih (joints_cons_bounds c (rest ++ b)).1

lemma eq_of_append_cons_eq {a b x y : List Char} (hx : c ∉ x) (hy : c ∉ y) (h : a ++ c :: x = b ++ c :: y) :
    a = b ∧ x = y := by
  rcases append_eq_append_iff.mp h with ⟨z, rfl, hz⟩ | ⟨z, rfl, hz⟩
  · cases z with
    | nil => exact ⟨by simp, by simpa using hz⟩
    | cons d z => exact absurd (tail_eq_of_cons_eq hz ▸ by simp : c ∈ x) hx
  · cases z with
    | nil => exact ⟨by simp, by simpa using hz.symm⟩
    | cons d z => exact absurd (tail_eq_of_cons_eq hz ▸ by simp : c ∈ y) hy

lemma eq_of_append_cons_eq_left {a b x y : List Char} (ha : c ∉ a) (hb : c ∉ b)
    (h : a ++ c :: x = b ++ c :: y) : a = b := by
  have hba := congrArg reverse h
  simp only [reverse_append, reverse_cons, append_assoc, singleton_append] at hba
  exact reverse_inj.mp (eq_of_append_cons_eq (by simpa) (by simpa) hba).2

/-- A number between underscores is no code, so the label of a name does not end in one. -/
lemma mangle_ne_numbered {k n : List Char} (hk : k ≠ []) (hd : ∀ c ∈ k, c.isDigit = true)
    (hn : n ≠ []) (a b : List Char) :
    a ++ n.flatMap mangleChar ≠ b ++ '_' :: (k ++ ['_']) := by
  intro h
  have hnot : '_' ∉ k := fun hmem => absurd (hd '_' hmem) (by decide)
  -- the word of the last character, if it ends in an underscore, would have `k` for its code
  have hesc : ∀ {x code : List Char}, '_' ∉ code →
      a ++ (x ++ '_' :: (code ++ ['_'])) = b ++ '_' :: (k ++ ['_']) → code = k := by
    intro x code hc heq
    have hcut : (a ++ x ++ '_' :: code) ++ ['_'] = (b ++ '_' :: k) ++ ['_'] := by simpa using heq
    exact (eq_of_append_cons_eq hc hnot (append_cancel_right hcut)).2
  obtain ⟨n, c, rfl⟩ : ∃ n' c, n = n' ++ [c] := ⟨_, _, (dropLast_concat_getLast hn).symm⟩
  rw [flatMap_append, flatMap_singleton, mangleChar] at h
  split at h
  · rename_i ha
    have hl : (a ++ n.flatMap mangleChar) ++ [c] = (b ++ '_' :: k) ++ ['_'] := by simpa using h
    obtain rfl : c = '_' := by simpa using (append_inj' hl rfl).2
    exact absurd ha (by decide)
  · split at h
    · have hnil : [] = k := hesc (by simp) h
      exact hk hnil.symm
    · obtain ⟨x, hx, hlet⟩ := head_code c
      have hdig := hd x (hesc (underscore_notMem_code c) h ▸ mem_of_head? hx)
      exact absurd hdig (by simp [hlet])

/-- A method and a numbered method of the same full name have different labels. The classes are given
by their names, which `sep` divides from the name of the method. -/
lemma numbered_method_ne {o o' n n' sep k : List Char} (hk : k ≠ [])
    (hd : ∀ c ∈ k, c.isDigit = true) (hn : o ++ sep ++ n = o' ++ sep ++ n') :
    pathChars o ++ '_' :: n.flatMap mangleChar ≠
      pathChars o' ++ '_' :: n'.flatMap mangleChar ++ '_' :: (k ++ ['_']) := by
  intro h
  obtain rfl : n = [] := by
    cases n with
    | nil => rfl
    | cons c n =>
      exact absurd (by simpa using h) (mangle_ne_numbered hk hd (cons_ne_nil c n) (pathChars o ++ ['_'])
          (pathChars o' ++ '_' :: n'.flatMap mangleChar))
  -- so the first class is the longer one, while its label has to be shorter
  have hp : o' <+: o := by
    have hlen := congrArg length hn
    simp only [length_append, length_nil] at hlen
    have hle : o' <+: o ++ sep ++ [] := by
      rw [hn, append_assoc]
      exact prefix_append _ _
    have hr : o <+: o ++ sep ++ [] := by
      rw [append_assoc]
      exact prefix_append _ _
    exact prefix_of_prefix_length_le hle hr (by omega)
  have hj : joints o' ≤ joints o := by
    obtain ⟨x, rfl⟩ := hp
    exact Nat.le_trans (Nat.le_add_right _ _) (joints_add_le o' x)
  have hlen := congrArg length h
  have hall := congrArg (fun cs => (cs.flatMap mangleChar).length) hn
  have hl := length_pathChars o
  have hl' := length_pathChars o'
  simp only [length_append, length_cons, flatMap_append, flatMap_nil, length_nil] at hlen hall
  omega

end Label

end Garnet
