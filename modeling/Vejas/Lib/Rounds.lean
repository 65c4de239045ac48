import Mathlib.Data.List.DropRight

/-! A scan that takes items in rounds until a round meets its budget, and a ring that keeps the last
few of what goes through it. -/

namespace Rounds
variable {α : Type}

theorem rtake_append_rtake (n : Nat) (l : List α) (x : α) : (l.rtake n ++ [x]).rtake n = (l ++ [x]).rtake n := by
  cases n with
  | zero => rw [List.rtake_zero, List.rtake_zero]
  | succ n =>
    rw [List.rtake_concat_succ, List.rtake_concat_succ]
    congr 1
    unfold List.rtake
    rw [List.drop_drop, List.length_drop]
    congr 1
    omega

theorem rtake_cons_eq_iff (n : Nat) (x : α) (l : List α) : (x :: l).rtake n = l.rtake n ↔ n ≤ l.length := by
  unfold List.rtake
  constructor
  · intro h
    have hlen := congrArg List.length h
    rw [List.length_drop, List.length_drop, List.length_cons] at hlen
    omega
  · intro h
    have hsub : (x :: l).length - n = l.length - n + 1 := by
      rw [List.length_cons]
      omega
    rw [hsub, List.drop_succ_cons]

theorem mem_rtake_concat {n : Nat} (hn : 0 < n) (l : List α) (x : α) : x ∈ (l ++ [x]).rtake n := by
  obtain ⟨m, rfl⟩ := Nat.exists_eq_succ_of_ne_zero (Nat.pos_iff_ne_zero.mp hn)
  rw [List.rtake_concat_succ]
  exact List.mem_append_right _ (List.mem_singleton_self x)

theorem mem_of_mem_rtake {n : Nat} {l : List α} {x : α} (h : x ∈ l.rtake n) : x ∈ l := List.mem_of_mem_drop h

/-- The rounds a scan takes: it stops after the first that brings it to its budget. -/
def scanned (budget : Nat) : Nat → List (List α) → List (List α)
  | _, [] => []
  | seen, b :: bs => b :: if budget ≤ seen + b.length then [] else scanned budget (seen + b.length) bs

theorem scanned_eq_self {budget seen : Nat} {rounds : List (List α)}
    (h : seen + rounds.dropLast.flatten.length < budget) : scanned budget seen rounds = rounds := by
  induction rounds generalizing seen with
  | nil => rfl
  | cons b bs ih =>
    cases bs with
    | nil =>
      unfold scanned
      split
      · rfl
      · rfl
    | cons b' bs =>
      rw [List.dropLast_cons_cons, List.flatten_cons, List.length_append] at h
      unfold scanned
      rw [if_neg (by omega), ih (by omega)]

theorem scanned_eq_dropLast {budget seen : Nat} {rounds : List (List α)} (hne : ∀ b ∈ rounds, b ≠ [])
    (hseen : seen < budget) (htotal : seen + rounds.flatten.length ≤ budget + 1)
    (h : budget ≤ seen + rounds.dropLast.flatten.length) :
    (scanned budget seen rounds).flatten = rounds.flatten.dropLast := by
  induction rounds generalizing seen with
  | nil => rfl
  | cons b bs ih =>
    cases bs with
    | nil =>
      have hzero : ([b].dropLast.flatten : List α).length = 0 := rfl
      omega
    | cons b' bs =>
      have hb' := List.length_pos_iff.mpr (hne b' (List.mem_cons_of_mem _ (List.mem_cons_self ..)))
      rw [List.dropLast_cons_cons, List.flatten_cons, List.length_append] at h
      rw [List.flatten_cons, List.length_append] at htotal
      rw [List.flatten_cons (l := b), List.dropLast_append_of_ne_nil]
      · unfold scanned
        split
        next hmet =>
          -- the rest is one round of one item
          have hone : (b' :: bs).flatten.length = 1 := by
            rw [List.flatten_cons, List.length_append] at htotal ⊢
            omega
          obtain ⟨x, hx⟩ := List.length_eq_one_iff.mp hone
          rw [hx, List.flatten_cons]
          rfl
        next hnot =>
          rw [List.flatten_cons, ih (fun b hb => hne b (List.mem_cons_of_mem _ hb)) (by omega) (by omega) (by omega)]
      · intro hnil
        rw [List.flatten_cons] at hnil
        rw [(List.append_eq_nil_iff.mp hnil).1] at hb'
        exact Nat.lt_irrefl 0 hb'

theorem length_dropLast_lt {budget : Nat} {rounds : List (List α)} (hne : ∀ b ∈ rounds, b ≠ []) (hpos : 0 < budget)
    (h : ¬ rounds.dropLast.flatten.length < budget) : rounds.dropLast.flatten.length < rounds.flatten.length := by
  rcases List.eq_nil_or_concat rounds with rfl | ⟨front, last, rfl⟩
  · exact absurd hpos h
  · rw [List.concat_eq_append] at hne ⊢
    have hlast := List.length_pos_iff.mpr (hne last (List.mem_append_right _ (List.mem_singleton_self last)))
    rw [List.dropLast_concat, List.flatten_append, List.length_append, List.flatten_singleton]
    omega

section
variable {key : α → Nat} {l : List α}

theorem filter_from (hord : l.Pairwise fun a b => key a < key b) (p : α → Bool) (k : Nat) :
    (l.filter fun a => p a && decide (k ≤ key a)) = (l.filter fun a => p a && decide (k + 1 ≤ key a)) ∨
      ∃ x ∈ l, p x = true ∧ key x = k ∧
        (l.filter fun a => p a && decide (k ≤ key a)) = x :: l.filter fun a => p a && decide (k + 1 ≤ key a) := by
  induction l with
  | nil => exact .inl rfl
  | cons m l ih =>
    obtain ⟨hm, hl⟩ := List.pairwise_cons.mp hord
    by_cases hskip : p m = false ∨ key m < k
    · -- the first item is in neither
      have hout : ∀ j, k ≤ j → ¬ (p m && decide (j ≤ key m)) = true := by
        intro j hj hin
        obtain ⟨hp, hle⟩ := Bool.and_eq_true_iff.mp hin
        have hle := of_decide_eq_true hle
        rcases hskip with hp' | hlt
        · exact Bool.false_ne_true (hp'.symm.trans hp)
        · omega
      simp only [List.filter_cons]
      rw [if_neg (hout k (Nat.le_refl k)), if_neg (hout (k + 1) (Nat.le_succ k))]
      refine (ih hl).imp id ?_
      rintro ⟨x, hx, hp, hk, heq⟩
      exact ⟨x, List.mem_cons_of_mem _ hx, hp, hk, heq⟩
    · rw [not_or] at hskip
      have hp : p m = true := eq_true_of_ne_false hskip.1
      have hle : k ≤ key m := Nat.le_of_not_lt hskip.2
      -- what comes after the first item is beyond both starts
      have hrest : (l.filter fun a => p a && decide (k ≤ key a)) = l.filter fun a => p a && decide (k + 1 ≤ key a) := by
        refine List.filter_congr fun a ha => ?_
        have hlt := hm a ha
        rw [decide_eq_true (by omega : k ≤ key a), decide_eq_true (by omega : k + 1 ≤ key a)]
      have hin : (p m && decide (k ≤ key m)) = true := Bool.and_eq_true_iff.mpr ⟨hp, decide_eq_true hle⟩
      simp only [List.filter_cons]
      rw [if_pos hin, hrest]
      by_cases heq : key m = k
      · have hout : ¬ (p m && decide (k + 1 ≤ key m)) = true := by
          rw [decide_eq_false (by omega), Bool.and_false]
          exact Bool.false_ne_true
        rw [if_neg hout]
        exact .inr ⟨m, List.mem_cons_self .., hp, heq, rfl⟩
      · have hin' : (p m && decide (k + 1 ≤ key m)) = true := Bool.and_eq_true_iff.mpr ⟨hp, decide_eq_true (by omega)⟩
        rw [if_pos hin']
        exact .inl rfl

theorem length_le_of_between (hord : l.Pairwise fun a b => key a < key b) {lo hi : Nat}
    (h : ∀ a ∈ l, lo ≤ key a ∧ key a ≤ hi) : l.length ≤ hi + 1 - lo := by
  induction l generalizing lo with
  | nil => exact Nat.zero_le _
  | cons m l ih =>
    obtain ⟨hm, hl⟩ := List.pairwise_cons.mp hord
    have hbound := h m (List.mem_cons_self ..)
    have hrest : ∀ a ∈ l, key m + 1 ≤ key a ∧ key a ≤ hi :=
      fun a ha => ⟨hm a ha, (h a (List.mem_cons_of_mem _ ha)).2⟩
    have hlen := ih hl hrest
    rw [List.length_cons]
    omega

end

end Rounds
