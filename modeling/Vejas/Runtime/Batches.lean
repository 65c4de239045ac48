import Mathlib.Data.List.Infix
import Vejas.Runtime.Flow

/-! What the ledger of a consume loop says of a batch: the emits of the runs that were completed in
it, and the confirm that covers them. -/

namespace Vejas.Runtime
open Bus

def Act.emitsIn (n : Nat) : Act → List Msg
  | .ran _ k emits => if k = n then emits else []
  | _ => []

def completed (n : Nat) : List Act → List Msg
  | [] => []
  | a :: log => completed n log ++ a.emitsIn n

/-- `m` was run in batch `n`, with these emits, before a confirm of that batch returned `Ok`; and
what was confirmed held the emits of all runs of the batch, in their order and as often. -/
def Covered (log : List Act) (m : Delivery) (n : Nat) (emits : List Msg) : Prop :=
  ∃ held older newer, log = newer ++ .confirm n held true :: older ∧ .ran m n emits ∈ older ∧
    (completed n older).Sublist held

def RanUpTo (log : List Act) (n : Nat) : Prop := ∀ m k emits, .ran m k emits ∈ log → k ≤ n

variable {log new : List Act} {m : Delivery} {n : Nat} {emits : List Msg} {a : Act}

theorem ran_mem_of_cons (h : .ran m n emits ∈ a :: log) (ha : ∀ m k emits, a ≠ .ran m k emits) :
    .ran m n emits ∈ log := by
  rcases List.mem_cons.mp h with heq | h
  · exact absurd heq.symm (ha m n emits)
  · exact h

theorem Act.emitsIn_of_ne (h : ∀ m emits, a ≠ .ran m n emits) : a.emitsIn n = [] := by
  cases a with
  | ran m k emits =>
    rw [Act.emitsIn, if_neg]
    rintro rfl
    exact h m emits rfl
  | _ => rfl

theorem completed_cons_of_ne (h : ∀ m emits, a ≠ .ran m n emits) : completed n (a :: log) = completed n log := by
  rw [completed, Act.emitsIn_of_ne h, List.append_nil]

theorem completed_append (h : ∀ a ∈ new, a.emitsIn n = []) : completed n (new ++ log) = completed n log := by
  induction new with
  | nil => rfl
  | cons a new ih =>
    rw [List.cons_append, completed, h a List.mem_cons_self, List.append_nil]
    exact ih fun b hb => h b (List.mem_cons_of_mem _ hb)

theorem RanUpTo.cons (h : RanUpTo log n) (ha : ∀ m k emits, a = .ran m k emits → k ≤ n) :
    RanUpTo (a :: log) n := by
  intro m k emits hran
  rcases List.mem_cons.mp hran with heq | hran
  · exact ha m k emits heq.symm
  · exact h m k emits hran

theorem RanUpTo.append (h : RanUpTo log n) (hnew : ∀ m k emits, .ran m k emits ∈ new → k ≤ n) :
    RanUpTo (new ++ log) n := by
  intro m k emits hran
  rcases List.mem_append.mp hran with hran | hran
  · exact hnew m k emits hran
  · exact h m k emits hran

theorem RanUpTo.succ (h : RanUpTo log n) : RanUpTo log (n + 1) :=
  fun m k emits hran => Nat.le_succ_of_le (h m k emits hran)

theorem RanUpTo.fresh (h : RanUpTo log n) : completed (n + 1) log = [] := by
  have hnil : ∀ a ∈ log, a.emitsIn (n + 1) = [] := by
    intro a ha
    apply Act.emitsIn_of_ne
    rintro m emits rfl
    exact Nat.not_succ_le_self _ (h m _ emits ha)
  have happ : completed (n + 1) (log ++ []) = completed (n + 1) [] := completed_append hnil
  rwa [List.append_nil] at happ

theorem Covered.write (h : Covered log m n emits) (new : List Act) : Covered (new ++ log) m n emits := by
  obtain ⟨held, older, newer, rfl, hran, hsub⟩ := h
  exact ⟨held, older, new ++ newer, by rw [List.append_assoc], hran, hsub⟩

theorem Covered.ran (h : Covered log m n emits) : .ran m n emits ∈ log := by
  obtain ⟨held, older, newer, rfl, hran, -⟩ := h
  exact List.mem_append_right _ (List.mem_cons_of_mem _ hran)

theorem Covered.confirmed (h : Covered log m n emits) : ∃ held, .confirm n held true ∈ log := by
  obtain ⟨held, older, newer, rfl, -, -⟩ := h
  exact ⟨held, List.mem_append_right _ List.mem_cons_self⟩

end Vejas.Runtime
