import Mathlib.Data.List.Basic
import Vejas.Lib.Fallible

/-! What a computation appends to a log that is part of its state. A relation between the result of a
computation and what it appended is put together from such relations for its parts. -/

namespace Fallible
variable {ε σ η α β : Type} {log : σ → List η} {m : Fallible ε σ α} {f : α → Fallible ε σ β}

/-- Wherever it starts, the computation appends events that `Q` relates to its result. -/
def Logs (log : σ → List η) (m : Fallible ε σ α) (Q : Except ε α → List η → Prop) : Prop :=
  ∀ s, ∃ evs, log (m s).2 = log s ++ evs ∧ Q (m s).1 evs

variable {Q Q' : Except ε α → List η → Prop} {R : α → Except ε β → List η → Prop} {S : Except ε β → List η → Prop}

theorem Logs.mono (h : Logs log m Q) (hQ : ∀ r evs, Q r evs → Q' r evs) : Logs log m Q' := by
  intro s
  obtain ⟨evs, hlog, hq⟩ := h s
  exact ⟨evs, hlog, hQ _ evs hq⟩

theorem Logs.silent (hlog : ∀ s, log (m s).2 = log s) (hQ : ∀ s, Q (m s).1 []) : Logs log m Q := by
  intro s
  refine ⟨[], ?_, hQ s⟩
  rw [hlog, List.append_nil]

theorem Logs.pure {a : α} (hQ : Q (.ok a) []) : Logs log (Pure.pure a : Fallible ε σ α) Q :=
  Logs.silent (fun _ => rfl) fun _ => hQ

theorem Logs.throw {e : ε} (hQ : Q (.error e) []) : Logs log (Fallible.throw e : Fallible ε σ α) Q :=
  Logs.silent (fun _ => rfl) fun _ => hQ

theorem Logs.event (h : ∀ s, ∃ ev, log (m s).2 = log s ++ [ev] ∧ Q (m s).1 [ev]) : Logs log m Q := by
  intro s
  obtain ⟨ev, hlog, hq⟩ := h s
  exact ⟨[ev], hlog, hq⟩

theorem Logs.bind (hm : Logs log m Q) (hf : ∀ a, Logs log (f a) (R a))
    (herror : ∀ e evs, Q (.error e) evs → S (.error e) evs)
    (hok : ∀ a evs r rest, Q (.ok a) evs → R a r rest → S r (evs ++ rest)) : Logs log (m >>= f) S := by
  intro s
  obtain ⟨evs, hlog, hq⟩ := hm s
  rcases hms : m s with ⟨_ | a, s'⟩
  · rw [bind_error hms]
    rw [hms] at hlog hq
    exact ⟨evs, hlog, herror _ evs hq⟩
  · rw [bind_ok hms]
    rw [hms] at hlog hq
    obtain ⟨rest, hrest, hr⟩ := hf a s'
    refine ⟨evs ++ rest, ?_, hok a evs _ rest hq hr⟩
    rw [hrest, hlog, List.append_assoc]

end Fallible
