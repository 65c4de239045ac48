import Vejas.Vjs.Locality

/-! What holds of every result of a parser. -/

namespace Vejas.Vjs
open Json Rust

/-- Wherever `m` succeeds, `Q` holds of what it finds and where it goes on. -/
def Yields {α : Type} (m : Parse α) (i : Nat) (Q : α → Nat → Prop) : Prop := ∀ a j, m i = .ok (a, j) → Q a j

section
variable {α β : Type} {p : Input} {i : Nat}

theorem Yields.bind {m : Parse α} {f : α → Parse β} {Q : β → Nat → Prop} {R : α → Nat → Prop} (h : Yields m i R)
    (hf : ∀ a j, R a j → Yields (f a) j Q) : Yields (m >>= f) i Q := by
  intro b k hrun
  obtain ⟨a, j, hm, hrest⟩ := of_parse_bind hrun
  exact hf a j (h a j hm) b k hrest

theorem yields_pure {a : α} {Q : α → Nat → Prop} (h : Q a i) : Yields (pure a) i Q := by
  intro b k hrun
  cases hrun
  exact h

theorem yields_any (m : Parse α) : Yields m i fun _ _ => True := fun _ _ _ => trivial

theorem yields_fail {Q : α → Nat → Prop} (msg : String) : Yields (p.fail msg) i Q := by
  intro a j hrun
  cases hrun

theorem Yields.next {f : Tok → Parse β} {Q : β → Nat → Prop} (h : ∀ t, p.tokAt i = t → Yields (f t) (i + 1) Q) :
    Yields (p.next >>= f) i Q := h _ rfl

theorem Yields.pos {f : Nat → Parse β} {Q : β → Nat → Prop} (h : Yields (f (p.posAt i)) i Q) :
    Yields (p.pos >>= f) i Q := h

theorem yields_skipNewlines : Yields p.skipNewlines i fun _ j => i ≤ j := by
  intro a j hrun
  cases hrun
  exact Nat.le_add_right _ _

theorem Yields.accept {s : Sym} {f : Bool → Parse β} {Q : β → Nat → Prop}
    (htrue : p.tokAt i = .sym s → Yields (f true) (i + 1) Q)
    (hfalse : (p.tokAt i).is s = false → Yields (f false) i Q) :
    Yields (p.accept s >>= f) i Q := by
  intro b k hrun
  obtain ⟨a, j, hm, hrest⟩ := of_parse_bind hrun
  unfold Input.accept at hm
  split at hm
  next his =>
    cases hm
    exact htrue (Tok.eq_of_is his) b k hrest
  next hne =>
    cases hm
    exact hfalse (by simpa using hne) b k hrest

theorem yields_itemEnd : Yields p.itemEnd i fun _ j => i ≤ j := by
  unfold Input.itemEnd
  refine yields_skipNewlines.bind fun _ j hj => Yields.accept (fun _ => ?_) fun _ => yields_pure hj
  intro _ k hrun
  have := yields_skipNewlines () k hrun
  omega

variable [External]

theorem yields_word {what : String} : Yields (p.word what) i fun _ j => i ≤ j := by
  intro _ j hrun
  have := (@follows_word p p i i _ what _ j hrun).1
  omega

theorem yields_eat {s : Sym} {what : String} : Yields (p.eat s what) i fun _ j => i ≤ j := by
  intro _ j hrun
  have := (eat_ok hrun).2
  omega

end

end Vejas.Vjs
