import Mathlib.Data.List.Basic
import Mathlib.Data.List.Infix

/-! A reader that gathers chunks until a test on what it has gathered says to stop. -/

namespace Framing
variable {α : Type} {stops : List α → Bool} {q cs : List (List α)}

structure First (stops : List α → Bool) (q : List (List α)) : Prop where
  ne_nil : q ≠ []
  at_last : stops q.flatten = true
  before : ∀ p, p ≠ [] → p <+: q → p ≠ q → stops p.flatten = false

def Never (stops : List α → Bool) (cs : List (List α)) : Prop :=
  ∀ p, p ≠ [] → p <+: cs → stops p.flatten = false

theorem Never.nil : Never stops [] := by
  intro p hp hpre
  exact absurd (List.prefix_nil.mp hpre) hp

theorem prefix_cons {c : List α} {p : List (List α)} (hp : p ≠ []) (hpre : p <+: c :: cs) :
    ∃ p', p = c :: p' ∧ p' <+: cs := by
  cases p with
  | nil => exact absurd rfl hp
  | cons d p =>
    obtain ⟨rfl, h⟩ := List.cons_prefix_cons.mp hpre
    exact ⟨p, rfl, h⟩

theorem First.tail {c : List α} (h : First stops (c :: q)) (hc : stops c = false) :
    First (fun b => stops (c ++ b)) q := by
  refine ⟨?_, h.at_last, ?_⟩
  · rintro rfl
    have hs := h.at_last
    rw [List.flatten_cons, List.flatten_nil, List.append_nil, hc] at hs
    cases hs
  · intro p _ hpre hne
    exact h.before (c :: p) nofun (List.cons_prefix_cons.mpr ⟨rfl, hpre⟩) (fun heq => hne (List.cons.inj heq).2)

theorem First.cons {c : List α} (hc : stops c = false) (h : First (fun b => stops (c ++ b)) q) :
    First stops (c :: q) := by
  refine ⟨nofun, h.at_last, ?_⟩
  intro p hp hpre hne
  obtain ⟨p', rfl, hpre'⟩ := prefix_cons hp hpre
  by_cases hp' : p' = []
  · rw [hp', List.flatten_cons, List.flatten_nil, List.append_nil]
    exact hc
  · exact h.before p' hp' hpre' (fun heq => hne (heq ▸ rfl))

theorem First.single {c : List α} (hc : stops c = true) : First stops [c] := by
  refine ⟨nofun, by simpa using hc, ?_⟩
  intro p hp hpre hne
  obtain ⟨p', rfl, hpre'⟩ := prefix_cons hp hpre
  exact absurd (by rw [List.prefix_nil.mp hpre']) hne

theorem First.eq_single {c : List α} (h : First stops (c :: q)) (hc : stops c = true) : q = [] := by
  by_contra hq
  have hs := h.before [c] nofun ⟨q, rfl⟩ (fun heq => hq (List.cons.inj heq).2.symm)
  rw [List.flatten_cons, List.flatten_nil, List.append_nil, hc] at hs
  cases hs

theorem never_cons_iff {c : List α} :
    Never stops (c :: cs) ↔ stops c = false ∧ Never (fun b => stops (c ++ b)) cs := by
  constructor
  · intro h
    refine ⟨?_, fun p _ hpre => h (c :: p) nofun (List.cons_prefix_cons.mpr ⟨rfl, hpre⟩)⟩
    simpa using h [c] nofun ⟨cs, rfl⟩
  · rintro ⟨hc, h⟩ p hp hpre
    obtain ⟨p', rfl, hpre'⟩ := prefix_cons hp hpre
    by_cases hp' : p' = []
    · rw [hp', List.flatten_cons, List.flatten_nil, List.append_nil]
      exact hc
    · exact h p' hp' hpre'

theorem first_or_never (stops : List α → Bool) (cs : List (List α)) :
    (∃ q rest, cs = q ++ rest ∧ First stops q) ∨ Never stops cs := by
  induction cs generalizing stops with
  | nil => exact .inr Never.nil
  | cons c cs ih =>
    cases hc : stops c with
    | true => exact .inl ⟨[c], cs, rfl, First.single hc⟩
    | false =>
      rcases ih fun b => stops (c ++ b) with ⟨q, rest, rfl, hq⟩ | hnever
      · exact .inl ⟨c :: q, rest, rfl, hq.cons hc⟩
      · exact .inr (never_cons_iff.mpr ⟨hc, hnever⟩)

theorem First.unique {q' rest rest' : List (List α)} (h : First stops q) (h' : First stops q')
    (heq : q ++ rest = q' ++ rest') : q = q' := by
  have hq : q <+: q ++ rest := ⟨rest, rfl⟩
  have hq' : q' <+: q ++ rest := ⟨rest', heq.symm⟩
  rcases List.prefix_or_prefix_of_prefix hq hq' with hp | hp
  · by_contra hne
    have hs := h'.before q h.ne_nil hp hne
    rw [h.at_last] at hs
    cases hs
  · by_contra hne
    have hs := h.before q' h'.ne_nil hp (Ne.symm hne)
    rw [h'.at_last] at hs
    cases hs

end Framing
