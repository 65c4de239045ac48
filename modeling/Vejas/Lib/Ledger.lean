import Mathlib.Logic.Basic

/-! A ledger, newest entry first, in which every entry was due by the ones before it. -/

namespace Ledger
variable {α : Type}

/-- Every entry is due by the entries it was written on top of. -/
def Earned (due : List α → α → Prop) : List α → Prop
  | [] => True
  | a :: log => due log a ∧ Earned due log

def Persists (due : List α → α → Prop) : Prop := ∀ log b a, due log a → due (b :: log) a

variable {due : List α → α → Prop} {log : List α}

theorem Persists.append (hp : Persists due) {a : α} (h : due log a) (more : List α) :
    due (more ++ log) a := by
  induction more with
  | nil => exact h
  | cons b more ih => exact hp _ b a ih

theorem Earned.append (h : Earned due log) {new : List α}
    (hn : ∀ a ∈ new, ∀ more, due (more ++ log) a) : Earned due (new ++ log) := by
  -- each new entry is due whatever was written before it, so in particular below itself
  induction new with
  | nil => exact h
  | cons a new ih =>
    have hrest := ih fun b hb => hn b (List.mem_cons_of_mem _ hb)
    exact ⟨hn a List.mem_cons_self new, hrest⟩

theorem Earned.due_below (h : Earned due log) {pre post : List α} {a : α}
    (hlog : log = post ++ a :: pre) : due pre a := by
  subst hlog
  induction post with
  | nil => exact h.1
  | cons b post ih => exact ih h.2

end Ledger
