import Mathlib.Data.List.Infix

/-! A text with every occurrence of a pattern, left to right and without overlap, replaced by a
filling. -/

namespace Filling
variable {α : Type} [DecidableEq α]

def fillGo (pat new : List α) : Nat → List α → List α
  | _, [] => []
  | skip + 1, _ :: cs => fillGo pat new skip cs
  | 0, c :: cs =>
    if pat.isPrefixOf (c :: cs) then new ++ fillGo pat new (pat.length - 1) cs else c :: fillGo pat new 0 cs

def fill (pat new cs : List α) : List α := fillGo pat new 0 cs

variable {pat new : List α}

theorem fillGo_succ (pat new : List α) (skip : Nat) (c : α) (cs : List α) :
    fillGo pat new (skip + 1) (c :: cs) = fillGo pat new skip cs := rfl

theorem fillGo_cons (pat new : List α) (c : α) (cs : List α) :
    fillGo pat new 0 (c :: cs) =
      if pat.isPrefixOf (c :: cs) then new ++ fillGo pat new (pat.length - 1) cs else c :: fillGo pat new 0 cs := rfl

theorem fillGo_skip (cs rest : List α) : fillGo pat new cs.length (cs ++ rest) = fillGo pat new 0 rest := by
  induction cs with
  | nil => rfl
  | cons c cs ih =>
    rw [List.length_cons, List.cons_append, fillGo_succ]
    exact ih

theorem fill_pat (hpat : pat ≠ []) (rest : List α) : fill pat new (pat ++ rest) = new ++ fill pat new rest := by
  obtain ⟨c, cs, rfl⟩ := List.exists_cons_of_ne_nil hpat
  have hpre : (c :: cs).isPrefixOf (c :: (cs ++ rest)) = true :=
    List.isPrefixOf_iff_prefix.mpr (List.prefix_append _ _)
  unfold fill
  rw [List.cons_append, fillGo_cons, if_pos hpre, List.length_cons, Nat.add_sub_cancel, fillGo_skip]

theorem fill_cons {c : α} {rest : List α} (h : ¬ pat <+: c :: rest) :
    fill pat new (c :: rest) = c :: fill pat new rest := by
  have hpre : ¬ pat.isPrefixOf (c :: rest) = true := by
    rw [List.isPrefixOf_iff_prefix]
    exact h
  unfold fill
  rw [fillGo_cons, if_neg hpre]

omit [DecidableEq α] in
theorem not_prefix_of_head {p c : α} {pat rest : List α} (h : c ≠ p) : ¬ p :: pat <+: c :: rest := by
  rintro ⟨t, ht⟩
  exact h (List.cons.inj ht).1.symm

theorem head_fill {p : α} {pat cs : List α} (h : cs.head? ≠ some p) :
    (fill (p :: pat) new cs).head? = cs.head? := by
  cases cs with
  | nil => rfl
  | cons c cs =>
    have hc : c ≠ p := by
      rintro rfl
      exact h rfl
    rw [fill_cons (not_prefix_of_head hc), List.head?_cons, List.head?_cons]

end Filling
