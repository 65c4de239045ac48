import Mathlib.Order.Nat

/-! A feed that gives numbered items in increasing order and may give again any item it
gave before, through a first-in-first-out queue. `given` is what it gave, `high` its
position, and every item up to `seen` that the feed gave has left the queue at least once. -/

namespace Feed

structure Ordered (given : List Nat) (high seen : Nat) (queue : List Nat) : Prop where
  bound : ∀ q ∈ given, q ≤ high
  seen_le : seen ≤ high
  queued : ∀ q ∈ queue, q ∈ given
  waiting : ∀ q ∈ given, q ≤ seen ∨ q ∈ queue
  order : ∀ pre x post, queue = pre ++ x :: post → ∀ q ∈ given, q < x → q ≤ seen ∨ q ∈ pre

variable {given queue : List Nat} {high seen x q : Nat}

theorem Ordered.rest (hb : ∀ q ∈ given, q ≤ high) : Ordered given high high [] where
  bound := hb
  seen_le := Nat.le_refl _
  queued := fun _ hq => by cases hq
  waiting q hq := .inl (hb q hq)
  order pre x post h := by
    have hlen := congrArg List.length h
    simp at hlen

theorem order_concat (hw : ∀ q ∈ given, q ≤ seen ∨ q ∈ queue)
    (ho : ∀ pre x post, queue = pre ++ x :: post → ∀ q ∈ given, q < x → q ≤ seen ∨ q ∈ pre)
    {pre post : List Nat} {y : Nat} (h : queue ++ [x] = pre ++ y :: post) (hq : q ∈ given)
    (hlt : q < y) : q ≤ seen ∨ q ∈ pre := by
  rcases List.eq_nil_or_concat post with rfl | ⟨post', z, rfl⟩
  · obtain ⟨rfl, -⟩ := List.append_inj' h rfl
    exact hw q hq
  · rw [List.concat_eq_append, ← List.cons_append, ← List.append_assoc] at h
    obtain ⟨hqueue, -⟩ := List.append_inj' h rfl
    exact ho pre y post' hqueue q hq hlt

theorem Ordered.again (h : Ordered given high seen queue) (hx : x ∈ given) :
    Ordered given high seen (queue ++ [x]) where
  bound := h.bound
  seen_le := h.seen_le
  queued q hq := by
    rcases List.mem_append.mp hq with hq | hq
    · exact h.queued q hq
    · rw [List.mem_singleton.mp hq]
      exact hx
  waiting q hq := (h.waiting q hq).imp_right (List.mem_append_left _)
  order _ _ _ hsplit _ hq hlt := order_concat h.waiting h.order hsplit hq hlt

theorem Ordered.fresh (h : Ordered given high seen queue) (hx : high < x) :
    Ordered (x :: given) x seen (queue ++ [x]) where
  bound q hq := by
    rcases List.mem_cons.mp hq with rfl | hq
    · exact Nat.le_refl _
    · exact Nat.le_of_lt (Nat.lt_of_le_of_lt (h.bound q hq) hx)
  seen_le := Nat.le_of_lt (Nat.lt_of_le_of_lt h.seen_le hx)
  queued q hq := by
    rcases List.mem_append.mp hq with hq | hq
    · exact List.mem_cons_of_mem _ (h.queued q hq)
    · rw [List.mem_singleton.mp hq]
      exact List.mem_cons_self
  waiting q hq := by
    rcases List.mem_cons.mp hq with rfl | hq
    · exact .inr (List.mem_append_right _ List.mem_cons_self)
    · exact (h.waiting q hq).imp_right (List.mem_append_left _)
  order pre y post hsplit q hq hlt := by
    rcases List.mem_cons.mp hq with rfl | hq
    · -- nothing in the queue is larger than a new item
      have hy : y ∈ queue ++ [q] := by
        rw [hsplit]
        exact List.mem_append_right _ List.mem_cons_self
      rcases List.mem_append.mp hy with hy | hy
      · have hle := h.bound y (h.queued y hy)
        omega
      · rw [List.mem_singleton.mp hy] at hlt
        exact absurd hlt (Nat.lt_irrefl _)
    · exact order_concat h.waiting h.order hsplit hq hlt

theorem Ordered.take (h : Ordered given high seen (x :: queue)) :
    Ordered given high (max seen x) queue where
  bound := h.bound
  seen_le := Nat.max_le.mpr ⟨h.seen_le, h.bound x (h.queued x List.mem_cons_self)⟩
  queued q hq := h.queued q (List.mem_cons_of_mem _ hq)
  waiting q hq := by
    rcases h.waiting q hq with hle | hmem
    · exact .inl (Nat.le_trans hle (Nat.le_max_left _ _))
    · rcases List.mem_cons.mp hmem with rfl | hmem
      · exact .inl (Nat.le_max_right _ _)
      · exact .inr hmem
  order pre y post hsplit q hq hlt := by
    have hcons : x :: queue = (x :: pre) ++ y :: post := by rw [hsplit, List.cons_append]
    rcases h.order _ _ _ hcons q hq hlt with hle | hmem
    · exact .inl (Nat.le_trans hle (Nat.le_max_left _ _))
    · rcases List.mem_cons.mp hmem with rfl | hmem
      · exact .inl (Nat.le_max_right _ _)
      · exact .inr hmem

theorem Ordered.lt_behind (h : Ordered given high seen (x :: queue)) (hq : q ∈ queue)
    (hseen : seen < q) (hne : q ≠ x) : max seen x < q := by
  -- what waits behind the head and was not seen is larger than the head
  have hgiven := h.queued q (List.mem_cons_of_mem _ hq)
  have hx : x < q := by
    rcases Nat.lt_or_gt_of_ne hne with hlt | hgt
    · rcases h.order [] x queue rfl q hgiven hlt with hle | hnil
      · omega
      · cases hnil
    · exact hgt
  exact Nat.max_lt.mpr ⟨hseen, hx⟩

end Feed
