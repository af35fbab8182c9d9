import Garnet.Code.Assemble
import Garnet.Proofs.Code.Junction
import Garnet.Proofs.Label.Role

/-!
# Where labels stand in the code of a program

Code that needs a label takes a new one and lets it stand in one place. `Lays C own m` says what labels stand in
the lines that `m` writes: the labels `own`, which were made before, and labels that it made itself, each in one
place. A label made on the way is the duty of the code behind it (`Lays.newLabel`), down to the line that lets it
stand. What else is known of the lines is `C`.

The numbers of the places that `break` goes to come from the tree. One that was seen before is an error, so each
stands once all the same.
-/

namespace Garnet

open List Reg Label

def Line.label? : Line → Option String
  | .label name => some name
  | _ => none

def Line.labels (lines : List Line) : List String := lines.filterMap label?

lemma Line.labels_append (lines lines' : List Line) :
    labels (lines ++ lines') = labels lines ++ labels lines' :=
  filterMap_append

lemma Line.labels_flatten {liness : List (List Line)} (h : ∀ lines ∈ liness, labels lines = []) :
    labels liness.flatten = [] := by
  rw [labels, filterMap_flatten]
  refine flatten_eq_nil_iff.mpr fun ls hls => ?_
  obtain ⟨lines, hl, rfl⟩ := mem_map.mp hls
  exact h lines hl

/-! ### Labels that are made while code is written -/

namespace Shared

def stems : List String :=
  ["falsy", "sym", "obj", "cls", "true", "heap", "send", "slow", "ovf", "done", "safe", "else", "endif",
    "logic", "not", "while", "wend", "wbrk", "do", "dotest", "doend", "dobrk", "nextrescue", "retry",
    "rescue", "endbegin", "defined"]

/-- The stem of the places that `break` goes to. -/
def breakStem : String := "brk_"

/-- Between the states `t` and `t'` a label with this stem and number was made. -/
def Makes (t t' : Shared) (key : String × Int) : Prop :=
  key.1 ∈ stems ∧ (t.labels : Int) < key.2 ∧ key.2 ≤ t'.labels ∨
    key.1 = breakStem ∧ key.2 ∈ t'.breakSites ∧ key.2 ∉ t.breakSites

/-- Labels and integers are added and none is forgotten. -/
structure Grows (t t' : Shared) : Prop where
  labels_le : t.labels ≤ t'.labels
  breakSites_subset : t.breakSites ⊆ t'.breakSites
  integers : t.literals.integers.toList <+: t'.literals.integers.toList

variable {t t' t'' : Shared} {key : String × Int}

lemma Grows.refl (t : Shared) : t.Grows t := ⟨le_rfl, .refl _, prefix_rfl⟩

lemma Grows.trans (h : t.Grows t') (h' : t'.Grows t'') : t.Grows t'' :=
  ⟨Nat.le_trans h.labels_le h'.labels_le, List.Subset.trans h.breakSites_subset h'.breakSites_subset,
    h.integers.trans h'.integers⟩

theorem Grows.newLabel (t : Shared) : t.Grows { t with labels := t.labels + 1 } :=
  ⟨Nat.le_succ _, .refl _, prefix_rfl⟩

lemma Makes.before (h : t.Makes t' key) (h' : t'.Grows t'') : t.Makes t'' key := by
  have hle := h'.labels_le
  rcases h with ⟨hs, hlt, hle'⟩ | ⟨hs, hin, hnot⟩
  · exact .inl ⟨hs, hlt, by omega⟩
  · exact .inr ⟨hs, h'.breakSites_subset hin, hnot⟩

lemma Makes.after (h : t.Grows t') (h' : t'.Makes t'' key) : t.Makes t'' key := by
  have hle := h.labels_le
  rcases h' with ⟨hs, hlt, hle'⟩ | ⟨hs, hin, hnot⟩
  · exact .inl ⟨hs, by omega, hle'⟩
  · exact .inr ⟨hs, hin, fun hmem => hnot (h.breakSites_subset hmem)⟩

lemma breakStem_notMem_stems : breakStem ∉ stems := by decide

lemma Makes.not_later (h : t.Makes t' key) : ¬t'.Makes t'' key := by
  rintro (⟨hs', hlt', hle'⟩ | ⟨hs', hin', hnot'⟩)
  · rcases h with ⟨hs, hlt, hle⟩ | ⟨hs, hin, hnot⟩
    · omega
    · exact breakStem_notMem_stems (hs ▸ hs')
  · rcases h with ⟨hs, hlt, hle⟩ | ⟨hs, hin, hnot⟩
    · exact breakStem_notMem_stems (hs' ▸ hs)
    · exact hnot' hin

end Shared

/-- Between the states `t` and `t'` the labels `new` were let stand: the labels `own`, and labels that
were made in between, each in one place. -/
structure Bound (own : List String) (t : Shared) (new : List String) (t' : Shared) : Prop where
  grows : t.Grows t'
  exact : ∃ made : List (String × Int), new.Perm (own ++ made.map fun key => inner key.1 key.2) ∧
    made.Nodup ∧ ∀ key ∈ made, t.Makes t' key

namespace Bound

variable {own own' new new' : List String} {t t' t'' : Shared}

lemma nil (h : t.Grows t') : Bound [] t [] t' := ⟨h, [], .refl _, nodup_nil, by simp⟩

lemma refl (own : List String) (t : Shared) : Bound own t own t :=
  ⟨.refl t, [], by simp, nodup_nil, by simp⟩

lemma append (h : Bound own t new t') (h' : Bound own' t' new' t'') :
    Bound (own ++ own') t (new ++ new') t'' := by
  obtain ⟨made, hp, hn, hm⟩ := h.exact
  obtain ⟨made', hp', hn', hm'⟩ := h'.exact
  refine ⟨h.grows.trans h'.grows, made ++ made', ?_, ?_, ?_⟩
  · refine (hp.append hp').trans ?_
    rw [map_append, append_assoc, append_assoc]
    exact ((perm_append_comm_assoc _ _ _)).append_left own
  · refine nodup_append.mpr ⟨hn, hn', ?_⟩
    rintro key hkey _ hkey' rfl
    exact (hm key hkey).not_later (hm' key hkey')
  · refine forall_mem_append.mpr ⟨fun key hkey => ?_, fun key hkey => ?_⟩
    · exact (hm key hkey).before h'.grows
    · exact .after h.grows (hm' key hkey)

lemma perm (h : Bound own t new t') (hown : own.Perm own') : Bound own' t new t' := by
  obtain ⟨made, hp, hm⟩ := h.exact
  exact ⟨h.grows, made, hp.trans (hown.append_right _), hm⟩

lemma make (key : String × Int) (hg : t.Grows t') (hkey : t.Makes t' key)
    (h : Bound (own ++ [inner key.1 key.2]) t' new t'') : Bound own t new t'' := by
  obtain ⟨made, hp, hn, hm⟩ := h.exact
  refine ⟨hg.trans h.grows, key :: made, ?_, ?_, ?_⟩
  · rwa [append_assoc] at hp
  · exact nodup_cons.mpr ⟨fun hmem => hkey.not_later (hm key hmem), hn⟩
  · exact forall_mem_cons.mpr ⟨hkey.before h.grows, fun k hk => .after hg (hm k hk)⟩

end Bound

namespace Emit

variable {stem name label : String} {id : Int} {α β : Type} {own own' : List String} {line : Line}
  {lines : List Line} {C D E : List Line → Prop}

/-- The computation writes lines that satisfy `C`. It lets the labels `own` stand, and labels that it makes,
each in one place. -/
def Lays (C : List Line → Prop) (own : List String) (m : Emit α) : Prop := ∀ ⦃s a s'⦄, m s = .ok a s' →
    ∃ code, s'.lines = s.lines ++ code ∧ C code ∧ Bound own s.shared (Line.labels code) s'.shared

namespace Lays

lemma bind {m : Emit α} {f : α → Emit β} (happ : ∀ code code', C code → D code' → E (code ++ code'))
    (hm : Lays C own m) (hf : ∀ a, Lays D own' (f a)) : Lays E (own ++ own') (m >>= f) := by
  intro s b s' h
  obtain ⟨a, t, ha, hb⟩ := bind_eq_ok.mp h
  obtain ⟨code, hl, hc, hbou⟩ := hm ha
  obtain ⟨code', hl', hc', hb'⟩ := hf a hb
  refine ⟨code ++ code', by rw [hl', hl, append_assoc], happ _ _ hc hc', ?_⟩
  rw [Line.labels_append]
  exact hbou.append hb'

lemma perm {m : Emit α} (h : Lays C own m) (hown : own.Perm own') : Lays C own' m := by
  intro s a s' hm
  obtain ⟨code, hl, hc, hb⟩ := h hm
  exact ⟨code, hl, hc, hb.perm hown⟩

lemma fail {cause : EmitCause} {span : Span} : Lays C own (fail cause span : Emit α) :=
  fun _ _ _ h => absurd h throw_ne_ok

lemma of_unchanged {m : Emit α} (hnil : C [])
    (h : ∀ ⦃s a s'⦄, m s = .ok a s' → s'.entries = s.entries ∧ s.shared.Grows s'.shared) : Lays C [] m := by
  intro s a s' hm
  obtain ⟨hent, hg⟩ := h hm
  exact ⟨[], by rw [append_nil, Emitter.lines, hent, Emitter.lines], hnil, .nil hg⟩

theorem newLabel {f : String → Emit β} (hs : stem ∈ Shared.stems)
    (hf : ∀ k : Int, Lays C (own ++ [inner stem k]) (f (inner stem k))) :
    Lays C own (newLabel stem >>= f) := by
  intro s b s' h
  obtain ⟨label, t, hl, hb⟩ := bind_eq_ok.mp h
  cases hl
  obtain ⟨code, hlin, hc, hbou⟩ := hf (s.shared.labels + 1 : Nat) hb
  exact ⟨code, hlin, hc, .make (stem, (s.shared.labels + 1 : Nat)) (.newLabel _)
    (.inl ⟨hs, by simp, Int.le_refl _⟩) hbou⟩

lemma spareLabel {f : String → Emit β} (hf : ∀ k : Int, Lays C own (f (inner stem k))) :
    Lays C own (Emit.newLabel stem >>= f) := by
  intro s b s' h
  obtain ⟨label, t, hl, hb⟩ := bind_eq_ok.mp h
  cases hl
  obtain ⟨code, hlin, hc, hbou⟩ := hf (s.shared.labels + 1 : Nat) hb
  exact ⟨code, hlin, hc, (Bound.nil (.newLabel _)).append hbou⟩

end Lays

lemma lays_write (h : C [line]) : Lays C line.label?.toList (write line) := by
  intro s a s' hm
  have hone : Line.labels [line] = line.label?.toList := by cases line <;> rfl
  refine ⟨[line], lines_write hm, h, hone ▸ ?_⟩
  cases hm
  exact .refl _ _

lemma lays_writeAll (h : C lines) : Lays C (Line.labels lines) (writeAll lines) :=
  fun _ _ _ hm => ⟨lines, (writeAll_eq_ok hm).1, h, (writeAll_eq_ok hm).2 ▸ .refl _ _⟩

lemma breakSite_eq_ok {s s' : Emitter} (h : breakSite id s = .ok label s') :
    label = inner Shared.breakStem id ∧ id ∉ s.shared.breakSites ∧
      s'.shared = { s.shared with breakSites := id :: s.shared.breakSites } ∧
      s'.lines = s.lines ++ [.directive (".equ\t__brk_sp_" ++ Numeral.decimal id ++ ", " ++
        Numeral.decimal (slotDisp s.nextSlot)), .movl esp (.mem ebp (slotDisp s.nextSlot))] := by
  rw [breakSite, get_bind_eq] at h
  split at h
  · cases h
  · rename_i hnew
    have hnot : id ∉ s.shared.breakSites := fun hmem => hnew (contains_iff_mem.mpr hmem)
    cases h
    exact ⟨by rw [Label.inner]; rfl, hnot, rfl, by simp [Emitter.lines]⟩

lemma Lays.breakSite {f : String → Emit β}
    (ha : ∀ text disp code, C code → C (.directive text :: .movl esp (.mem ebp disp) :: code))
    (hf : Lays C (own ++ [inner Shared.breakStem id]) (f (inner Shared.breakStem id))) :
    Lays C own (breakSite id >>= f) := by
  intro s b s' h
  obtain ⟨label, t, hlab, hb⟩ := bind_eq_ok.mp h
  obtain ⟨rfl, hnot, hs, hk⟩ := breakSite_eq_ok hlab
  obtain ⟨code, hl, hc, hbou⟩ := hf hb
  rw [hk, append_assoc] at hl
  refine ⟨_, hl, ha _ _ _ hc, .make (Shared.breakStem, id) (?_ : s.shared.Grows t.shared) ?_ hbou⟩
  · rw [hs]
    exact ⟨le_rfl, subset_cons_self _ _, prefix_rfl⟩
  · rw [hs]
    exact .inr ⟨rfl, mem_cons_self, hnot⟩

end Emit

end Garnet
