import Mathlib.Data.List.Infix
import Vejas.Lib.Filling
import Vejas.Rust.Path

/-! Cutting a text at a separator: what comes before its first occurrence, and what `join` puts
together again. -/

namespace Vejas.Rust

def Clear (sep a b : List Char) : Prop := ∀ x y, a = x ++ y → y ≠ [] → ¬ sep <+: y ++ b

variable {sep a b : List Char}

theorem Clear.tail {c : Char} (h : Clear sep (c :: a) b) : Clear sep a b := by
  intro x y hxy hy
  exact h (c :: x) y (by rw [hxy, List.cons_append]) hy

theorem Clear.head {c : Char} (h : Clear sep (c :: a) b) : ¬ sep <+: c :: (a ++ b) :=
  h [] (c :: a) rfl (List.cons_ne_nil _ _)

theorem Clear.nil (sep b : List Char) : Clear sep [] b := by
  intro x y hxy hy
  exact absurd (List.append_eq_nil_iff.mp hxy.symm).2 hy

theorem Clear.cons {c : Char} (hc : ¬ sep <+: c :: (a ++ b)) (h : Clear sep a b) : Clear sep (c :: a) b := by
  intro x y hxy hy
  cases x with
  | nil =>
    rw [List.nil_append] at hxy
    rw [← hxy]
    exact hc
  | cons d x => exact h x y (List.cons.inj hxy).2 hy

theorem splitGo_clear (h : Clear sep a b) (acc : List Char) :
    splitGo sep 0 acc (a ++ b) = splitGo sep 0 (a.reverse ++ acc) b := by
  induction a generalizing acc with
  | nil => rfl
  | cons c a ih =>
    have hc : ¬ sep.isPrefixOf (c :: (a ++ b)) = true := by
      rw [List.isPrefixOf_iff_prefix]
      exact h.head
    rw [List.cons_append, splitGo_cons, if_neg hc, ih h.tail, List.reverse_cons, List.append_assoc, List.singleton_append]

theorem splitGo_skip (cs : List Char) (acc rest : List Char) :
    splitGo sep cs.length acc (cs ++ rest) = splitGo sep 0 acc rest := by
  induction cs with
  | nil => rfl
  | cons c cs ih =>
    rw [List.length_cons, List.cons_append, splitGo_succ]
    exact ih

theorem splitGo_sep (hsep : sep ≠ []) (acc : List Char) : splitGo sep 0 acc (sep ++ b) = acc.reverse :: splitGo sep 0 [] b := by
  obtain ⟨c, cs, rfl⟩ := List.exists_cons_of_ne_nil hsep
  have hpre : (c :: cs).isPrefixOf (c :: (cs ++ b)) = true := List.isPrefixOf_iff_prefix.mpr (List.prefix_append _ _)
  rw [List.cons_append, splitGo_cons, if_pos hpre, List.length_cons, Nat.add_sub_cancel, splitGo_skip]

theorem splitGo_none (h : Clear sep a []) : splitGo sep 0 [] a = [a] := by
  have hcut := splitGo_clear h []
  rw [List.append_nil, List.append_nil] at hcut
  rw [hcut, splitGo_nil, List.reverse_reverse]

theorem splitGo_first (hsep : sep ≠ []) (h : Clear sep a (sep ++ b)) :
    splitGo sep 0 [] (a ++ (sep ++ b)) = a :: splitGo sep 0 [] b := by
  rw [splitGo_clear h, splitGo_sep hsep, List.append_nil, List.reverse_reverse]

theorem clear_of_notMem {c : Char} (h : c ∉ a) (b : List Char) : Clear [c] a b := by
  intro x y hxy hy hpre
  obtain ⟨d, y, rfl⟩ := List.exists_cons_of_ne_nil hy
  obtain ⟨rest, hrest⟩ := hpre
  rw [List.cons_append, List.cons_append] at hrest
  refine h ?_
  rw [hxy, (List.cons.inj hrest).1]
  exact List.mem_append_right _ (List.mem_cons_self ..)

theorem split_eq (s : String) {sep : String} (hsep : sep.toList ≠ []) :
    split s sep = (splitGo sep.toList 0 [] s.toList).map String.ofList := by
  unfold split
  rw [if_neg]
  rw [List.isEmpty_iff]
  exact hsep

theorem join_cons (sep s t : String) (ss : List String) : join sep (s :: t :: ss) = s ++ sep ++ join sep (t :: ss) := rfl

theorem join_singleton (sep s : String) : join sep [s] = s := rfl

theorem split_join {sep : String} {c : Char} (hsep : sep.toList = [c]) {parts : List String} (hne : parts ≠ [])
    (h : ∀ p ∈ parts, c ∉ p.toList) : split (join sep parts) sep = parts := by
  have hcs : ([c] : List Char) ≠ [] := List.cons_ne_nil _ _
  rw [split_eq _ (hsep ▸ hcs), hsep]
  induction parts with
  | nil => exact absurd rfl hne
  | cons p parts ih =>
    have hp := h p (List.mem_cons_self ..)
    cases parts with
    | nil =>
      rw [join_singleton, splitGo_none (clear_of_notMem hp []), List.map_cons, String.ofList_toList, List.map_nil]
    | cons q parts =>
      have hrest : ∀ r ∈ q :: parts, c ∉ r.toList := fun r hr => h r (List.mem_cons_of_mem _ hr)
      rw [join_cons, String.toList_append, String.toList_append, hsep, List.append_assoc,
        splitGo_first hcs (clear_of_notMem hp _), List.map_cons, String.ofList_toList,
        ih (List.cons_ne_nil _ _) hrest]

theorem notMem_of_splitGo {c : Char} {acc cs piece : List Char} (hacc : c ∉ acc) (h : piece ∈ splitGo [c] 0 acc cs) : c ∉ piece := by
  induction cs generalizing acc with
  | nil =>
    rw [splitGo_nil, List.mem_singleton] at h
    rw [h, List.mem_reverse]
    exact hacc
  | cons d cs ih =>
    rw [splitGo_cons] at h
    split at h
    next hpre =>
      rcases List.mem_cons.mp h with rfl | h
      · rw [List.mem_reverse]
        exact hacc
      · exact ih List.not_mem_nil h
    next hpre =>
      refine ih (fun hmem => ?_) h
      rcases List.mem_cons.mp hmem with rfl | hmem
      · exact hpre (List.isPrefixOf_iff_prefix.mpr ⟨cs, rfl⟩)
      · exact hacc hmem

theorem notMem_of_mem_split {sep : String} {c : Char} (hsep : sep.toList = [c]) {s piece : String} (h : piece ∈ split s sep) :
    c ∉ piece.toList := by
  rw [split_eq _ (by rw [hsep]; exact List.cons_ne_nil _ _), hsep] at h
  obtain ⟨cs, hcs, rfl⟩ := List.mem_map.mp h
  rw [String.toList_ofList]
  exact notMem_of_splitGo List.not_mem_nil hcs

theorem splitGo_append {c : Char} (acc a b : List Char) :
    splitGo [c] 0 acc (a ++ c :: b) = splitGo [c] 0 acc a ++ splitGo [c] 0 [] b := by
  induction a generalizing acc with
  | nil => exact splitGo_sep (List.cons_ne_nil _ _) acc
  | cons d a ih =>
    rw [List.cons_append, splitGo_cons, splitGo_cons]
    by_cases hd : c = d
    · rw [if_pos (List.isPrefixOf_iff_prefix.mpr ⟨_, by rw [hd]; rfl⟩),
        if_pos (List.isPrefixOf_iff_prefix.mpr ⟨_, by rw [hd]; rfl⟩), List.cons_append]
      exact congrArg _ (ih [])
    · have hpre : ∀ l, ¬ List.isPrefixOf [c] (d :: l) = true := by
        intro l h
        obtain ⟨t, ht⟩ := List.isPrefixOf_iff_prefix.mp h
        exact hd (List.cons.inj ht).1
      rw [if_neg (hpre _), if_neg (hpre _), ih]

theorem split_append {sep : String} {c : Char} (hsep : sep.toList = [c]) (s t : String) :
    split (s ++ sep ++ t) sep = split s sep ++ split t sep := by
  have hne : sep.toList ≠ [] := by rw [hsep]; exact List.cons_ne_nil _ _
  rw [split_eq _ hne, split_eq _ hne, split_eq _ hne, String.toList_append, String.toList_append, hsep, List.append_assoc,
    List.singleton_append, splitGo_append, List.map_append]

theorem splitGo_head (sep : List Char) (skip : Nat) (acc cs : List Char) :
    ∃ more pieces, splitGo sep skip acc cs = (acc.reverse ++ more) :: pieces := by
  induction cs generalizing skip acc with
  | nil => exact ⟨[], [], by rw [splitGo_nil, List.append_nil]⟩
  | cons c cs ih =>
    cases skip with
    | succ skip =>
      rw [splitGo_succ]
      exact ih skip acc
    | zero =>
      rw [splitGo_cons]
      split
      · exact ⟨[], _, by rw [List.append_nil]⟩
      · obtain ⟨more, pieces, h⟩ := ih 0 (c :: acc)
        exact ⟨c :: more, pieces, by rw [h, List.reverse_cons, List.append_assoc, List.singleton_append]⟩

theorem split_ne_nil {sep : String} (hne : sep.toList ≠ []) (s : String) : split s sep ≠ [] := by
  obtain ⟨more, pieces, h⟩ := splitGo_head sep.toList 0 [] s.toList
  rw [split_eq _ hne, h]
  exact List.cons_ne_nil _ _

theorem join_append (sep : String) {as bs : List String} (ha : as ≠ []) (hb : bs ≠ []) :
    join sep (as ++ bs) = join sep as ++ sep ++ join sep bs := by
  induction as with
  | nil => exact absurd rfl ha
  | cons a as ih =>
    cases as with
    | nil =>
      obtain ⟨b, bs, rfl⟩ := List.exists_cons_of_ne_nil hb
      rfl
    | cons a' as =>
      rw [List.cons_append, List.cons_append, join_cons, join_cons, ← List.cons_append, ih (List.cons_ne_nil _ _)]
      simp only [String.append_assoc]

theorem toList_join_splitGo {sep : String} {c : Char} (hsep : sep.toList = [c]) (acc cs : List Char) :
    (join sep ((splitGo [c] 0 acc cs).map String.ofList)).toList = acc.reverse ++ cs := by
  induction cs generalizing acc with
  | nil => rw [splitGo_nil, List.map_singleton, join_singleton, String.toList_ofList, List.append_nil]
  | cons d cs ih =>
    rw [splitGo_cons]
    split
    next hpre =>
      obtain ⟨t, ht⟩ := List.isPrefixOf_iff_prefix.mp hpre
      obtain ⟨more, pieces, hhead⟩ := splitGo_head [c] 0 [] cs
      have hrest := ih []
      rw [show [c].length - 1 = 0 from rfl, hhead] at *
      rw [List.map_cons, List.map_cons, join_cons, String.toList_append, String.toList_append, hsep, String.toList_ofList,
        ← List.map_cons, hrest, List.reverse_nil, List.nil_append, List.append_assoc, ← (List.cons.inj ht).1]
      rfl
    next => rw [ih, List.reverse_cons, List.append_assoc, List.singleton_append]

theorem join_split {sep : String} {c : Char} (hsep : sep.toList = [c]) (s : String) : join sep (split s sep) = s := by
  have hne : sep.toList ≠ [] := by rw [hsep]; exact List.cons_ne_nil _ _
  rw [← String.toList_inj, split_eq _ hne, hsep, toList_join_splitGo hsep, List.reverse_nil, List.nil_append]

theorem join_ends (sep : String) {c : Char} {parts : List String} (hne : parts ≠ [])
    (h : ∀ p ∈ parts, p ≠ "" ∧ c ∉ p.toList) :
    (∃ d ds, (join sep parts).toList = d :: ds ∧ d ≠ c) ∧ ∃ ds d, (join sep parts).toList = ds ++ [d] ∧ d ≠ c := by
  induction parts with
  | nil => exact absurd rfl hne
  | cons p parts ih =>
    obtain ⟨hp, hc⟩ := h p (List.mem_cons_self ..)
    have hchars : p.toList ≠ [] := fun hnil => hp (String.toList_eq_nil_iff.mp hnil)
    have hfirst : ∃ d ds, p.toList = d :: ds ∧ d ≠ c := by
      obtain ⟨d, ds, hds⟩ := List.exists_cons_of_ne_nil hchars
      exact ⟨d, ds, hds, fun hd => hc (by rw [hds, hd]; exact List.mem_cons_self ..)⟩
    have hlast : ∃ ds d, p.toList = ds ++ [d] ∧ d ≠ c := by
      refine ⟨_, _, (List.dropLast_append_getLast hchars).symm, fun hd => hc ?_⟩
      rw [← hd]
      exact List.getLast_mem _
    cases parts with
    | nil => exact ⟨hfirst, hlast⟩
    | cons q parts =>
      obtain ⟨-, ds, d, hds, hd⟩ := ih (List.cons_ne_nil _ _) fun r hr => h r (List.mem_cons_of_mem _ hr)
      obtain ⟨e, es, hes, he⟩ := hfirst
      rw [join_cons, String.toList_append, String.toList_append, hes, hds]
      refine ⟨⟨e, es ++ sep.toList ++ (ds ++ [d]), by rw [List.cons_append, List.cons_append], he⟩, ?_⟩
      exact ⟨e :: es ++ sep.toList ++ ds, d, by rw [List.append_assoc _ ds], hd⟩

theorem infix_join {sep p : String} {parts : List String} (h : p ∈ parts) : p.toList <:+: (join sep parts).toList := by
  induction parts with
  | nil => cases h
  | cons q parts ih =>
    cases parts with
    | nil =>
      rw [List.mem_singleton.mp h]
      exact List.infix_refl _
    | cons r parts =>
      rw [join_cons, String.toList_append, String.toList_append]
      rcases List.mem_cons.mp h with rfl | h
      · exact ⟨[], sep.toList ++ (join sep (r :: parts)).toList, by rw [List.nil_append, List.append_assoc]⟩
      · exact (ih h).trans (List.suffix_append _ _).isInfix

theorem containsChars_iff (needle cs : List Char) : containsChars needle cs = true ↔ needle <:+: cs := by
  induction cs with
  | nil => rw [containsChars, List.isEmpty_iff, List.infix_nil]
  | cons c cs ih => rw [containsChars, Bool.or_eq_true, List.isPrefixOf_iff_prefix, ih, List.infix_cons_iff]

theorem fileName_eq {path : String} {front : List String} {name : String} (hsegs : segments path = front ++ [name])
    (hreal : isTrivial name = false) (hup : name ≠ "..") : fileName path = some name := by
  unfold fileName
  rw [hsegs, List.filter_append, List.filter_cons_of_pos (by rw [hreal]; rfl), List.filter_nil, List.getLast?_concat]
  split
  next heq => exact absurd (Option.some.inj heq) hup
  · rfl

end Vejas.Rust
