import Vejas.Vjs.Parser

/-! The fuel of the front end suffices. Every recursion of the parser spends a part of what is
left of its tokens, the tokens inside f-strings counted, and there is no more of that than the
source has bytes. -/

namespace Vejas.Vjs
open Json Rust

mutual

def Tok.weight : Tok → Nat
  | .fStr parts => partsWeight parts + 1
  | .ident _ => 1
  | .str _ => 1
  | .num _ => 1
  | .sym _ => 1

def partsWeight : List FPart → Nat
  | [] => 0
  | .lit _ :: ps => partsWeight ps + 1
  | .expr toks :: ps => toksWeight toks + partsWeight ps + 1

def toksWeight : List (Tok × Nat) → Nat
  | [] => 0
  | (t, _) :: ts => Tok.weight t + toksWeight ts

end

namespace Input

def left (p : Input) (i : Nat) : Nat := toksWeight (p.toks.drop i)

end Input

theorem Tok.weight_pos (t : Tok) : 0 < t.weight := by
  cases t <;> simp [Tok.weight]

theorem toksWeight_drop_le (toks : List Spanned) (n : Nat) :
    toksWeight (toks.drop n) ≤ toksWeight toks := by
  induction toks generalizing n with
  | nil => simp
  | cons t ts ih =>
    cases n with
    | zero => exact Nat.le_refl _
    | succ n =>
      rw [List.drop_succ_cons]
      calc toksWeight (ts.drop n) ≤ toksWeight ts := ih n
        _ ≤ toksWeight (t :: ts) := by
          obtain ⟨t, pos⟩ := t
          exact Nat.le_add_left _ _

theorem left_le (p : Input) {i j : Nat} (h : i ≤ j) : p.left j ≤ p.left i := by
  obtain ⟨n, rfl⟩ := Nat.exists_eq_add_of_le h
  unfold Input.left
  rw [← List.drop_drop]
  exact toksWeight_drop_le _ n

theorem left_succ_le (p : Input) (i : Nat) : p.left (i + 1) ≤ p.left i := left_le p (Nat.le_succ i)

theorem left_of_tokAt {p : Input} {i : Nat} {t : Tok} (ht : p.tokAt i = t)
    (h : t.is .newline = false) : p.left (i + 1) + t.weight = p.left i := by
  unfold Input.tokAt Input.tokAt? at ht
  cases hi : p.toks[i]? with
  | none =>
    rw [hi] at ht
    rw [← ht] at h
    cases h
  | some sp =>
    rw [hi] at ht
    unfold Input.left
    rw [List.drop_eq_getElem_cons (List.getElem?_eq_some_iff.mp hi).1,
      (List.getElem?_eq_some_iff.mp hi).2]
    obtain ⟨u, pos⟩ := sp
    cases ht
    exact Nat.add_comm _ _

theorem left_lt_of_tokAt {p : Input} {i : Nat} {t : Tok} (ht : p.tokAt i = t)
    (h : t.is .newline = false) : p.left (i + 1) < p.left i := by
  have := left_of_tokAt ht h
  have := t.weight_pos
  omega

theorem Tok.not_newline {t : Tok} {s : Sym} (h : t.is s = true) (hs : s ≠ .newline) :
    t.is .newline = false := by
  cases t with
  | sym s' =>
    simp only [Tok.is, beq_iff_eq] at h
    simp [Tok.is, h, hs]
  | _ => rfl

/-- `m` ends at `i` without running out of fuel, and in `Q` if it succeeds. -/
def Ends {α : Type} (m : Parse α) (i : Nat) (Q : α → Nat → Prop) : Prop :=
  match m i with
  | .ok (a, j) => Q a j
  | .error f => f ≠ .outOfFuel

section
variable {α β : Type} {i : Nat}

theorem Ends.bind {m : Parse α} {f : α → Parse β} {Q : β → Nat → Prop}
    (h : Ends m i fun a j => Ends (f a) j Q) : Ends (m >>= f) i Q := by
  unfold Ends at h ⊢
  show match StateT.bind m f i with
    | .ok (a, j) => Q a j
    | .error f => f ≠ .outOfFuel
  unfold StateT.bind
  cases hm : m i with
  | error e =>
    rw [hm] at h
    exact h
  | ok r =>
    rw [hm] at h
    exact h

theorem Ends.mono {m : Parse α} {Q R : α → Nat → Prop} (h : Ends m i Q)
    (hQR : ∀ a j, Q a j → R a j) : Ends m i R := by
  unfold Ends at h ⊢
  cases hm : m i with
  | error e =>
    rw [hm] at h
    exact h
  | ok r =>
    rw [hm] at h
    exact hQR _ _ h

theorem ends_pure {a : α} {Q : α → Nat → Prop} (h : Q a i) : Ends (pure a) i Q := h

theorem errAt_ne (pos : Nat) (src : Bytes) (msg : String) : errAt pos src msg ≠ .outOfFuel := by
  unfold errAt slice
  split
  · nofun
  next f h =>
    split at h
    · cases h
    · cases h
      nofun

variable {p : Input}

theorem ends_fail {Q : α → Nat → Prop} (msg : String) : Ends (p.fail msg) i Q := errAt_ne _ _ _

theorem ends_peek {Q : Tok → Nat → Prop} (h : ∀ t, p.tokAt i = t → Q t i) : Ends p.peek i Q :=
  h _ rfl

theorem ends_next {Q : Tok → Nat → Prop} (h : ∀ t, p.tokAt i = t → Q t (i + 1)) :
    Ends p.next i Q := h _ rfl

theorem ends_pos {Q : Nat → Nat → Prop} (h : ∀ n, Q n i) : Ends p.pos i Q := h _

theorem ends_skipNewlines {Q : Unit → Nat → Prop} (h : ∀ j, i ≤ j → Q () j) :
    Ends p.skipNewlines i Q := h _ (Nat.le_add_right _ _)

theorem ends_accept {s : Sym} {Q : Bool → Nat → Prop} (hs : s ≠ .newline)
    (htrue : p.left (i + 1) < p.left i → Q true (i + 1)) (hfalse : Q false i) :
    Ends (p.accept s) i Q := by
  unfold Ends Input.accept
  split
  next r heq =>
    split at heq
    next his =>
      cases heq
      exact htrue (left_lt_of_tokAt rfl (Tok.not_newline his hs))
    · cases heq
      exact hfalse
  next heq => split at heq <;> cases heq

theorem ends_advance {Q : Unit → Nat → Prop} (h : Q () (i + 1)) : Ends Input.advance i Q := h

theorem ends_sees {s : Sym} {Q : Bool → Nat → Prop} (h : ∀ b, Q b i) : Ends (p.sees s) i Q := h _

theorem ends_atEnd {Q : Bool → Nat → Prop} (h : ∀ b, Q b i) : Ends p.atEnd i Q := h _

theorem ends_peek2 {Q : Option Tok → Nat → Prop} (h : ∀ t, Q t i) : Ends p.peek2 i Q := h _

theorem ends_optional {Q : Bool → Nat → Prop} (h : ∀ {b : Bool} j, p.left j ≤ p.left i → Q b j) :
    Ends (p.accept .comma) i Q :=
  ends_accept (by decide) (fun hlt => h _ (Nat.le_of_lt hlt)) (h _ (Nat.le_refl _))

variable [External]

theorem ends_eat {s : Sym} {what : String} {Q : Unit → Nat → Prop} (hs : s ≠ .newline)
    (h : p.left (i + 1) < p.left i → Q () (i + 1)) : Ends (p.eat s what) i Q := by
  unfold Input.eat
  refine Ends.bind (ends_peek fun t ht => ?_)
  split
  next his => exact h (left_lt_of_tokAt ht (Tok.not_newline his hs))
  · exact ends_fail _

theorem ends_word {what : String} {Q : String → Nat → Prop}
    (h : ∀ w, p.left (i + 1) < p.left i → Q w (i + 1)) : Ends (p.word what) i Q := by
  unfold Input.word
  refine Ends.bind (ends_peek fun t ht => ?_)
  dsimp only
  split
  next w hw =>
    refine h w (left_lt_of_tokAt ht ?_)
    cases t with
    | sym s =>
      cases s with
      | newline => cases hw
      | _ => rfl
    | _ => rfl
  · exact ends_fail _

omit [External] in
theorem ends_itemEnd {Q : Unit → Nat → Prop} (h : ∀ j, p.left j ≤ p.left i → Q () j) :
    Ends p.itemEnd i Q := by
  unfold Input.itemEnd
  refine Ends.bind (ends_skipNewlines fun j hj => ?_)
  refine Ends.bind (ends_accept (by decide) (fun hlt => ?_) ?_)
  · refine ends_skipNewlines fun k hk => h k ?_
    exact Nat.le_trans (left_le p hk) (Nat.le_trans (Nat.le_of_lt hlt) (left_le p hj))
  · exact ends_pure (h j (left_le p hj))

end

section
variable [External] (p : Input)

mutual

theorem ends_literalValue : ∀ fuel i, 3 * p.left i + 1 ≤ fuel →
    Ends (literalValue p fuel) i fun _ j => p.left j < p.left i
  | 0, i, h => by omega
  | fuel + 1, i, h => by
    unfold literalValue
    refine Ends.bind (ends_next fun t ht => ?_)
    split
    · exact ends_pure (left_lt_of_tokAt ht rfl)
    · exact ends_pure (left_lt_of_tokAt ht rfl)
    · exact ends_pure (left_lt_of_tokAt ht rfl)
    · exact ends_pure (left_lt_of_tokAt ht rfl)
    · exact ends_pure (left_lt_of_tokAt ht rfl)
    · have hlt := left_lt_of_tokAt ht rfl
      refine Ends.bind (ends_next fun u hu => ?_)
      split
      · exact ends_pure (Nat.lt_trans (left_lt_of_tokAt hu rfl) hlt)
      · exact ends_fail _
    · have hlt := left_lt_of_tokAt ht rfl
      refine Ends.bind (ends_skipNewlines fun j hj => ?_)
      have hj := left_le p hj
      refine Ends.bind ((ends_literalItems fuel j (by omega)).mono fun vs k hk => ?_)
      exact Nat.lt_of_le_of_lt hk (by omega)
    · have hlt := left_lt_of_tokAt ht rfl
      refine Ends.bind (ends_skipNewlines fun j hj => ?_)
      have hj := left_le p hj
      refine Ends.bind ((ends_literalFields fuel [] [] j (by omega)).mono fun r k hk => ?_)
      exact Nat.lt_of_le_of_lt hk (by omega)
    · exact ends_fail _

theorem ends_literalItems : ∀ fuel i, 3 * p.left i + 2 ≤ fuel →
    Ends (literalItems p fuel) i fun _ j => p.left j ≤ p.left i
  | 0, i, h => by omega
  | fuel + 1, i, h => by
    unfold literalItems
    refine Ends.bind (ends_accept (by decide) (fun hlt => ?_) ?_)
    · exact ends_pure (Nat.le_of_lt hlt)
    · refine Ends.bind ((ends_literalValue fuel i (by omega)).mono fun v j hj => ?_)
      refine Ends.bind (ends_itemEnd fun k hk => ?_)
      refine Ends.bind ((ends_literalItems fuel k (by omega)).mono fun vs l hl => ?_)
      exact ends_pure (by omega)

theorem ends_literalFields : ∀ fuel map spans i, 3 * p.left i + 1 ≤ fuel →
    Ends (literalFields p fuel map spans) i fun _ j => p.left j ≤ p.left i
  | 0, _, _, i, h => by omega
  | fuel + 1, map, spans, i, h => by
    unfold literalFields
    refine Ends.bind (ends_accept (by decide) (fun hlt => ?_) ?_)
    · exact ends_pure (Nat.le_of_lt hlt)
    · refine Ends.bind (ends_word fun key h₁ => ?_)
      refine Ends.bind (ends_eat (by decide) fun h₂ => ?_)
      refine Ends.bind (ends_pos fun _ => ?_)
      refine Ends.bind ((ends_literalValue fuel _ (by omega)).mono fun v j hj => ?_)
      refine Ends.bind (ends_pos fun _ => ?_)
      refine Ends.bind (ends_itemEnd fun k hk => ?_)
      exact (ends_literalFields fuel _ _ k (by omega)).mono fun r l hl => by omega

end

theorem ends_tryLiteral (fuel i : Nat) (h : 3 * p.left i + 1 ≤ fuel) :
    Ends (tryLiteral p fuel) i fun _ j => p.left j ≤ p.left i := by
  have hlit := ends_literalValue p fuel i h
  unfold Ends tryLiteral at *
  cases hrun : literalValue p fuel i with
  | ok r =>
    rw [hrun] at hlit
    dsimp only
    split
    next heq =>
      split at heq
      · cases heq
        exact Nat.le_of_lt hlit
      · cases heq
        exact Nat.le_refl _
    next heq => split at heq <;> cases heq
  | error f =>
    rw [hrun] at hlit
    cases f with
    | err msg => exact Nat.le_refl _
    | panic => exact hlit
    | outOfFuel => exact absurd rfl hlit

mutual

theorem ends_expr : ∀ fuel (p : Input) bp i, 3 * p.left i + 2 ≤ fuel →
    Ends (expr fuel p bp) i fun _ j => p.left j < p.left i
  | 0, p, bp, i, h => by omega
  | fuel + 1, p, bp, i, h => by
    unfold expr
    refine Ends.bind ((ends_primary fuel p i (by omega)).mono fun lhs j hj => ?_)
    refine Ends.bind ((ends_postfixes fuel p lhs j (by omega)).mono fun lhs' k hk => ?_)
    exact (ends_operators fuel p bp lhs' k (by omega)).mono fun e l hl => by omega

theorem ends_primary : ∀ fuel (p : Input) i, 3 * p.left i + 1 ≤ fuel →
    Ends (primary fuel p) i fun _ j => p.left j < p.left i
  | 0, p, i, h => by omega
  | fuel + 1, p, i, h => by
    unfold primary
    refine Ends.bind (ends_next fun t ht => ?_)
    split
    · exact ends_pure (left_lt_of_tokAt ht rfl)
    · exact ends_pure (left_lt_of_tokAt ht rfl)
    · exact ends_pure (left_lt_of_tokAt ht rfl)
    · exact ends_pure (left_lt_of_tokAt ht rfl)
    · exact ends_pure (left_lt_of_tokAt ht rfl)
    next parts =>
      have hw := left_of_tokAt ht rfl
      rw [Tok.weight] at hw
      refine Ends.bind ((ends_holes fuel p.src parts (i + 1) (by omega)).mono fun ps j hj => ?_)
      rw [hj]
      exact ends_pure (by omega)
    · have hlt := left_lt_of_tokAt ht rfl
      refine Ends.bind ((ends_expr fuel p 9 _ (by omega)).mono fun e j hj => ?_)
      exact ends_pure (by omega)
    · have hlt := left_lt_of_tokAt ht rfl
      refine Ends.bind ((ends_expr fuel p 9 _ (by omega)).mono fun e j hj => ?_)
      exact ends_pure (by omega)
    · exact ends_pure (left_lt_of_tokAt ht rfl)
    · exact ends_pure (left_lt_of_tokAt ht rfl)
    · exact ends_pure (left_lt_of_tokAt ht rfl)
    · exact ends_pure (left_lt_of_tokAt ht rfl)
    · have hlt := left_lt_of_tokAt ht rfl
      refine Ends.bind ((ends_invokeArgs fuel p _ (by omega)).mono fun r j hj => ?_)
      exact ends_pure (by omega)
    · have hlt := left_lt_of_tokAt ht rfl
      refine Ends.bind ((ends_expr fuel p 0 _ (by omega)).mono fun e j hj => ?_)
      refine Ends.bind (ends_eat (by decide) fun hk => ?_)
      exact ends_pure (by omega)
    · have hlt := left_lt_of_tokAt ht rfl
      refine Ends.bind (ends_skipNewlines fun j hj => ?_)
      have hj := left_le p hj
      refine Ends.bind ((ends_exprItems fuel p j (by omega)).mono fun es k hk => ?_)
      exact ends_pure (by omega)
    · have hlt := left_lt_of_tokAt ht rfl
      refine Ends.bind (ends_skipNewlines fun j hj => ?_)
      have hj := left_le p hj
      refine Ends.bind ((ends_exprFields fuel p j (by omega)).mono fun fs k hk => ?_)
      exact ends_pure (by omega)
    · have hlt := left_lt_of_tokAt ht rfl
      refine Ends.bind (ends_accept (by decide) (fun hlt' => ?_) ?_)
      · refine Ends.bind ((ends_callArgs fuel p _ (by omega)).mono fun es k hk => ?_)
        exact ends_pure (by omega)
      · exact ends_pure hlt
    · exact ends_fail _

theorem ends_holes : ∀ fuel (src : Bytes) (parts : List FPart) i, 3 * partsWeight parts + 1 ≤ fuel →
    Ends (holes fuel src parts) i fun _ j => j = i
  | 0, src, parts, i, h => by omega
  | fuel + 1, src, [], i, h => ends_pure rfl
  | fuel + 1, src, .lit s :: ps, i, h => by
    unfold holes
    rw [partsWeight] at h
    refine Ends.bind ((ends_holes fuel src ps i (by omega)).mono fun rest j hj => ?_)
    exact ends_pure hj
  | fuel + 1, src, .expr toks :: ps, i, h => by
    rw [partsWeight] at h
    have hleft : Input.left ⟨toks, src⟩ 0 = toksWeight toks := rfl
    have hexpr := ends_expr fuel ⟨toks, src⟩ 0 0 (by omega)
    have hrest : Ends (holes fuel src ps) i fun _ j => j = i := ends_holes fuel src ps i (by omega)
    unfold holes Ends
    unfold Ends at hexpr
    dsimp only
    cases hrun : expr fuel ⟨toks, src⟩ 0 0 with
    | error f =>
      rw [hrun] at hexpr
      exact hexpr
    | ok r =>
      show Ends (holes fuel src ps >>= fun rest => pure (FStringPart.expr r.1 :: rest)) i _
      exact Ends.bind (hrest.mono fun rest j hj => ends_pure hj)

theorem ends_exprItems : ∀ fuel (p : Input) i, 3 * p.left i + 3 ≤ fuel →
    Ends (exprItems fuel p) i fun _ j => p.left j ≤ p.left i
  | 0, p, i, h => by omega
  | fuel + 1, p, i, h => by
    unfold exprItems
    refine Ends.bind (ends_accept (by decide) (fun hlt => ?_) ?_)
    · exact ends_pure (Nat.le_of_lt hlt)
    · refine Ends.bind ((ends_expr fuel p 0 i (by omega)).mono fun e j hj => ?_)
      refine Ends.bind (ends_itemEnd fun k hk => ?_)
      refine Ends.bind ((ends_exprItems fuel p k (by omega)).mono fun es l hl => ?_)
      exact ends_pure (by omega)

theorem ends_exprFields : ∀ fuel (p : Input) i, 3 * p.left i + 1 ≤ fuel →
    Ends (exprFields fuel p) i fun _ j => p.left j ≤ p.left i
  | 0, p, i, h => by omega
  | fuel + 1, p, i, h => by
    unfold exprFields
    refine Ends.bind (ends_accept (by decide) (fun hlt => ?_) ?_)
    · exact ends_pure (Nat.le_of_lt hlt)
    · refine Ends.bind (ends_word fun key h₁ => ?_)
      refine Ends.bind (ends_eat (by decide) fun h₂ => ?_)
      refine Ends.bind ((ends_expr fuel p 0 _ (by omega)).mono fun e j hj => ?_)
      refine Ends.bind (ends_itemEnd fun k hk => ?_)
      refine Ends.bind ((ends_exprFields fuel p k (by omega)).mono fun fs l hl => ?_)
      exact ends_pure (by omega)

theorem ends_callArgs : ∀ fuel (p : Input) i, 3 * p.left i + 3 ≤ fuel →
    Ends (callArgs fuel p) i fun _ j => p.left j ≤ p.left i
  | 0, p, i, h => by omega
  | fuel + 1, p, i, h => by
    unfold callArgs
    refine Ends.bind (ends_accept (by decide) (fun hlt => ?_) ?_)
    · exact ends_pure (Nat.le_of_lt hlt)
    · refine Ends.bind ((ends_expr fuel p 0 i (by omega)).mono fun e j hj => ?_)
      refine Ends.bind (ends_optional fun k hk => ?_)
      refine Ends.bind ((ends_callArgs fuel p k (by omega)).mono fun es l hl => ?_)
      exact ends_pure (by omega)

theorem ends_namedArgs : ∀ fuel (p : Input) i, 3 * p.left i + 1 ≤ fuel →
    Ends (namedArgs fuel p) i fun _ j => p.left j ≤ p.left i
  | 0, p, i, h => by omega
  | fuel + 1, p, i, h => by
    unfold namedArgs
    refine Ends.bind (ends_accept (by decide) (fun hlt => ?_) ?_)
    · exact ends_pure (Nat.le_of_lt hlt)
    · refine Ends.bind (ends_word fun key h₁ => ?_)
      refine Ends.bind (ends_eat (by decide) fun h₂ => ?_)
      refine Ends.bind ((ends_expr fuel p 0 _ (by omega)).mono fun e j hj => ?_)
      refine Ends.bind (ends_optional fun k hk => ?_)
      refine Ends.bind ((ends_namedArgs fuel p k (by omega)).mono fun fs l hl => ?_)
      exact ends_pure (by omega)

theorem ends_invokeArgs : ∀ fuel (p : Input) i, 3 * p.left i + 1 ≤ fuel →
    Ends (invokeArgs fuel p) i fun _ j => p.left j ≤ p.left i
  | 0, p, i, h => by omega
  | fuel + 1, p, i, h => by
    unfold invokeArgs
    refine Ends.bind (ends_next fun t ht => ?_)
    split
    next n =>
      have hlt := left_lt_of_tokAt ht rfl
      have hargs : ∀ (name : String) j, p.left j < p.left i → Ends (do
          p.eat .lParen "("
          let args ← namedArgs fuel p
          pure (name, args)) j fun _ k => p.left k ≤ p.left i := by
        intro name j hj
        refine Ends.bind (ends_eat (by decide) fun hk => ?_)
        refine Ends.bind ((ends_namedArgs fuel p _ (by omega)).mono fun args k hk' => ?_)
        exact ends_pure (by omega)
      refine Ends.bind (ends_sees fun _ => ?_)
      refine Ends.bind (ends_peek2 fun _ => ?_)
      dsimp only
      split
      · have h₁ := left_succ_le p (i + 1)
        have h₂ := left_succ_le p (i + 1 + 1)
        exact Ends.bind (ends_advance (Ends.bind (ends_advance (hargs _ _ (by omega)))))
      · exact hargs _ _ hlt
    · exact ends_fail _

theorem ends_postfixes : ∀ fuel (p : Input) lhs i, 3 * p.left i + 1 ≤ fuel →
    Ends (postfixes fuel p lhs) i fun _ j => p.left j ≤ p.left i
  | 0, p, lhs, i, h => by omega
  | fuel + 1, p, lhs, i, h => by
    unfold postfixes
    refine Ends.bind (ends_peek fun t ht => ?_)
    split
    · have hlt := left_lt_of_tokAt ht rfl
      refine Ends.bind (ends_advance ?_)
      refine Ends.bind (ends_word fun f hf => ?_)
      exact (ends_postfixes fuel p _ _ (by omega)).mono fun e j hj => by omega
    · have hlt := left_lt_of_tokAt ht rfl
      refine Ends.bind (ends_advance ?_)
      refine Ends.bind (ends_word fun f hf => ?_)
      exact (ends_postfixes fuel p _ _ (by omega)).mono fun e j hj => by omega
    · have hlt := left_lt_of_tokAt ht rfl
      refine Ends.bind (ends_advance ?_)
      refine Ends.bind (ends_accept (by decide) (fun hlt' => ?_) ?_)
      · exact (ends_postfixes fuel p _ _ (by omega)).mono fun e j hj => by omega
      · refine Ends.bind ((ends_expr fuel p 0 _ (by omega)).mono fun inner j hj => ?_)
        refine Ends.bind (ends_eat (by decide) fun hk => ?_)
        exact (ends_postfixes fuel p _ _ (by omega)).mono fun e k hk => by omega
    · exact ends_pure (Nat.le_refl _)

theorem ends_operators : ∀ fuel (p : Input) bp lhs i, 3 * p.left i + 1 ≤ fuel →
    Ends (operators fuel p bp lhs) i fun _ j => p.left j ≤ p.left i
  | 0, p, bp, lhs, i, h => by omega
  | fuel + 1, p, bp, lhs, i, h => by
    unfold operators
    refine Ends.bind (ends_peek fun t ht => ?_)
    split
    · exact ends_pure (Nat.le_refl _)
    next op q hop =>
      split
      · exact ends_pure (Nat.le_refl _)
      · have hlt : p.left (i + 1) < p.left i := by
          refine left_lt_of_tokAt ht ?_
          cases t with
          | sym s =>
            cases s with
            | newline => cases hop
            | _ => rfl
          | _ => rfl
        refine Ends.bind (ends_advance ?_)
        refine Ends.bind ((ends_expr fuel p q _ (by omega)).mono fun rhs j hj => ?_)
        exact (ends_operators fuel p bp _ j (by omega)).mono fun e k hk => by omega

end

theorem ends_pathTail : ∀ fuel i, 3 * p.left i + 1 ≤ fuel →
    Ends (pathTail p fuel) i fun _ j => p.left j ≤ p.left i
  | 0, i, h => by omega
  | fuel + 1, i, h => by
    unfold pathTail
    refine Ends.bind (ends_accept (by decide) (fun hlt => ?_) ?_)
    · refine Ends.bind (ends_word fun w hw => ?_)
      refine Ends.bind ((ends_pathTail fuel _ (by omega)).mono fun ws j hj => ?_)
      exact ends_pure (by omega)
    · exact ends_pure (Nat.le_refl _)

theorem ends_condition (fuel i : Nat) (h : 3 * p.left i + 2 ≤ fuel) :
    Ends (condition p fuel) i fun _ j => p.left j < p.left i := by
  unfold condition
  refine Ends.bind (ends_pos fun _ => ?_)
  refine Ends.bind ((ends_expr fuel p 0 i h).mono fun c j hj => ?_)
  refine Ends.bind (ends_pos fun _ => ?_)
  refine Ends.bind (ends_eat (by decide) fun hk => ?_)
  exact ends_pure (by omega)

mutual

theorem ends_stmt : ∀ fuel i, 3 * p.left i + 1 ≤ fuel →
    Ends (stmt p fuel) i fun _ j => p.left j < p.left i
  | 0, i, h => by omega
  | fuel + 1, i, h => by
    unfold stmt
    refine Ends.bind (ends_peek fun t ht => ?_)
    split
    · have hlt := left_lt_of_tokAt ht rfl
      refine Ends.bind (ends_advance ?_)
      refine Ends.bind ((ends_expr fuel p 0 _ (by omega)).mono fun a j hj => ?_)
      refine Ends.bind (ends_eat (by decide) fun hk => ?_)
      refine Ends.bind ((ends_expr fuel p 0 _ (by omega)).mono fun b k hk => ?_)
      exact ends_pure (by omega)
    · have hlt := left_lt_of_tokAt ht rfl
      refine Ends.bind (ends_advance ?_)
      refine Ends.bind ((ends_expr fuel p 0 _ (by omega)).mono fun a j hj => ?_)
      refine Ends.bind (ends_eat (by decide) fun hk => ?_)
      refine Ends.bind ((ends_expr fuel p 0 _ (by omega)).mono fun b k hk => ?_)
      exact ends_pure (by omega)
    · have hlt := left_lt_of_tokAt ht rfl
      refine Ends.bind (ends_advance ?_)
      refine Ends.bind ((ends_invokeArgs fuel p _ (by omega)).mono fun r j hj => ?_)
      exact ends_pure (by omega)
    · have hlt := left_lt_of_tokAt ht rfl
      refine Ends.bind (ends_advance ?_)
      refine Ends.bind ((ends_condition p fuel _ (by omega)).mono fun c j hj => ?_)
      refine Ends.bind ((ends_block fuel j (by omega)).mono fun body k hk => ?_)
      exact (ends_ifRest fuel _ _ k (by omega)).mono fun s l hl => by omega
    · have hlt := left_lt_of_tokAt ht rfl
      refine Ends.bind (ends_advance ?_)
      refine Ends.bind (ends_next fun u hu => ?_)
      split
      · have hlt' := left_lt_of_tokAt hu rfl
        refine Ends.bind (ends_eat (by decide) fun h₁ => ?_)
        refine Ends.bind ((ends_expr fuel p 0 _ (by omega)).mono fun iter j hj => ?_)
        refine Ends.bind (ends_eat (by decide) fun h₂ => ?_)
        refine Ends.bind ((ends_block fuel _ (by omega)).mono fun body k hk => ?_)
        refine Ends.bind (ends_eat (by decide) fun h₃ => ?_)
        exact ends_pure (by omega)
      · exact ends_fail _
    · have hlt := left_lt_of_tokAt ht rfl
      refine Ends.bind (ends_advance ?_)
      refine Ends.bind ((ends_pathTail p fuel _ (by omega)).mono fun tail j hj => ?_)
      refine Ends.bind (ends_eat (by decide) fun hk => ?_)
      refine Ends.bind (ends_accept (by decide) (fun hlt' => ?_) ?_)
      · refine Ends.bind ((ends_invokeArgs fuel p _ (by omega)).mono fun r k hk => ?_)
        exact ends_pure (by omega)
      · refine Ends.bind ((ends_expr fuel p 0 _ (by omega)).mono fun e k hk => ?_)
        exact ends_pure (by omega)
    · exact ends_fail _

theorem ends_ifRest : ∀ fuel arms otherwise i, 3 * p.left i + 1 ≤ fuel →
    Ends (ifRest p fuel arms otherwise) i fun _ j => p.left j ≤ p.left i
  | 0, arms, otherwise, i, h => by omega
  | fuel + 1, arms, otherwise, i, h => by
    unfold ifRest
    refine Ends.bind (ends_peek fun t ht => ?_)
    split
    · have hlt := left_lt_of_tokAt ht rfl
      refine Ends.bind (ends_advance ?_)
      refine Ends.bind ((ends_condition p fuel _ (by omega)).mono fun c j hj => ?_)
      refine Ends.bind ((ends_block fuel j (by omega)).mono fun body k hk => ?_)
      exact (ends_ifRest fuel _ _ k (by omega)).mono fun s l hl => by omega
    · have hlt := left_lt_of_tokAt ht rfl
      refine Ends.bind (ends_advance ?_)
      refine Ends.bind (ends_eat (by decide) fun hk => ?_)
      refine Ends.bind ((ends_block fuel _ (by omega)).mono fun body k hk => ?_)
      exact (ends_ifRest fuel _ _ k (by omega)).mono fun s l hl => by omega
    · have hlt := left_lt_of_tokAt ht rfl
      exact Ends.bind (ends_advance (ends_pure (Nat.le_of_lt hlt)))
    · exact ends_fail _

theorem ends_block : ∀ fuel i, 3 * p.left i + 2 ≤ fuel →
    Ends (block p fuel) i fun _ j => p.left j ≤ p.left i
  | 0, i, h => by omega
  | fuel + 1, i, h => by
    unfold block
    refine Ends.bind (ends_skipNewlines fun j hj => ?_)
    have hj := left_le p hj
    refine Ends.bind (ends_sees fun _ => ?_)
    refine Ends.bind (ends_sees fun _ => ?_)
    refine Ends.bind (ends_sees fun _ => ?_)
    split
    · exact ends_pure hj
    · refine Ends.bind (ends_atEnd fun _ => ?_)
      split
      · exact ends_fail _
      · refine Ends.bind ((ends_stmt fuel j (by omega)).mono fun s k hk => ?_)
        refine Ends.bind ((ends_block fuel k (by omega)).mono fun ss l hl => ?_)
        exact ends_pure (by omega)

end

omit [External] in
theorem ends_directive (msg : String) {i : Nat} (h : p.left (i + 1) < p.left i) :
    Ends (directive p msg) i fun _ j => p.left j < p.left i := by
  unfold directive
  refine Ends.bind (ends_advance ?_)
  refine Ends.bind (ends_next fun t ht => ?_)
  have hle := left_succ_le p (i + 1)
  split
  · exact ends_pure (by omega)
  · exact ends_fail _

theorem ends_surfaceEntry (fuel i : Nat) (h : 3 * p.left i + 1 ≤ fuel) :
    Ends (surfaceEntry p fuel) i fun e j =>
      match e with
      | none => j = i
      | some _ => p.left j < p.left i := by
  have htry : ∀ name, p.tokAt i = .ident name →
      Ends (tryLiteral p fuel) (i + 2) fun _ j => p.left j < p.left i := by
    intro name ht
    have hlt := left_lt_of_tokAt ht rfl
    have hle := left_succ_le p (i + 1)
    exact (ends_tryLiteral p fuel (i + 1 + 1) (by omega)).mono fun r j hj => by omega
  unfold Ends at htry
  unfold Ends surfaceEntry
  split
  next r heq =>
    split at heq
    next name ht heqTok =>
      split at heq
      · split at heq
        next hrun =>
          cases heq
          have hlt := htry name ht
          rw [hrun] at hlt
          exact hlt
        · cases heq
          exact rfl
        · cases heq
      · cases heq
        exact rfl
    · cases heq
      exact rfl
  next f heq =>
    split at heq
    next name ht heqTok =>
      split at heq
      · split at heq
        · cases heq
        · cases heq
        next hrun =>
          cases heq
          have hne := htry name ht
          rw [hrun] at hne
          exact hne
      · cases heq
    · cases heq

theorem ends_topLevel (d : Draft) (fuel i : Nat) (h : 3 * p.left i + 1 ≤ fuel) :
    Ends (topLevel p d fuel) i fun _ j => p.left j < p.left i := by
  unfold topLevel
  refine Ends.bind (ends_peek fun t ht => ?_)
  split
  · exact Ends.bind ((ends_directive p _ (left_lt_of_tokAt ht rfl)).mono fun s j hj => ends_pure hj)
  · exact Ends.bind ((ends_directive p _ (left_lt_of_tokAt ht rfl)).mono fun s j hj => ends_pure hj)
  · exact Ends.bind ((ends_directive p _ (left_lt_of_tokAt ht rfl)).mono fun s j hj => ends_pure hj)
  · exact Ends.bind ((ends_directive p _ (left_lt_of_tokAt ht rfl)).mono fun s j hj => ends_pure hj)
  · refine Ends.bind ((ends_surfaceEntry p fuel i h).mono fun e j hj => ?_)
    cases e with
    | some e => exact ends_pure hj
    | none =>
      cases hj
      exact Ends.bind ((ends_stmt p fuel i h).mono fun s j hj => ends_pure hj)

theorem ends_items : ∀ fuel d i, 3 * p.left i + 2 ≤ fuel → Ends (items p fuel d) i fun _ _ => True
  | 0, d, i, h => by omega
  | fuel + 1, d, i, h => by
    unfold items
    refine Ends.bind (ends_skipNewlines fun j hj => ?_)
    have hj := left_le p hj
    refine Ends.bind (ends_atEnd fun _ => ?_)
    split
    · exact ends_pure trivial
    · refine Ends.bind ((ends_topLevel p d fuel j (by omega)).mono fun d' k hk => ?_)
      exact ends_items fuel d' k (by omega)

end

theorem partsWeight_append (ps qs : List FPart) :
    partsWeight (ps ++ qs) = partsWeight ps + partsWeight qs := by
  induction ps with
  | nil => simp [partsWeight]
  | cons part ps ih =>
    cases part with
    | lit s =>
      simp only [List.cons_append, partsWeight, ih]
      omega
    | expr toks =>
      simp only [List.cons_append, partsWeight, ih]
      omega

theorem partsWeight_flush (lit : Bytes) (parts : List FPart) :
    partsWeight (flush lit parts) = partsWeight parts + min lit.length 1 := by
  unfold flush
  cases lit with
  | nil => simp
  | cons c lit => simp [partsWeight_append, partsWeight]

theorem stringBody_end {i j : Nat} {acc cs s : Bytes} (h : stringBody i acc cs = some (s, j)) :
    i < j := by
  fun_induction stringBody i acc cs with
  | case1 => cases h
  | case2 i acc cs =>
    cases h
    exact Nat.lt_succ_self i
  | case3 i acc e cs' hquote ih =>
    have := ih h
    omega
  | case4 => cases h
  | case5 i acc c cs hquote hslash ih =>
    have := ih h
    omega

theorem holeEnd_end {depth j k : Nat} {cs : Bytes} (h : holeEnd depth j cs = some k) :
    j + min depth 1 ≤ k ∧ k ≤ j + cs.length := by
  fun_induction holeEnd depth j cs with
  | case1 j cs =>
    cases h
    simp
  | case2 => cases h
  | case3 j depth cs ih =>
    have := ih h
    simp only [List.length_cons]
    omega
  | case4 j depth cs hne ih =>
    have := ih h
    simp only [List.length_cons]
    omega
  | case5 j depth c cs hne hne' ih =>
    have := ih h
    simp only [List.length_cons]
    omega

section
variable [External]

def LexFits (src : Bytes) (i : Nat) (r : Except Fault (List Spanned)) : Prop :=
  match r with
  | .ok toks => toksWeight toks ≤ (src.length - i) + 1
  | .error f => f ≠ .outOfFuel

def StrFits (src : Bytes) (parts : List FPart) (lit : Bytes) (i : Nat)
    (r : Except Fault (List FPart × Nat)) : Prop :=
  match r with
  | .ok (ps, ni) => i < ni ∧ ni ≤ src.length ∧
      partsWeight ps ≤ partsWeight parts + min lit.length 1 + (ni - 1 - i)
  | .error f => f ≠ .outOfFuel

omit [External] in
theorem StrFits.later {src lit lit' : Bytes} {parts parts' : List FPart} {i j : Nat}
    {r : Except Fault (List FPart × Nat)} (h : StrFits src parts' lit' j r) (hij : i < j)
    (hw : partsWeight parts' + min lit'.length 1 ≤
      partsWeight parts + min lit.length 1 + (j - i)) : StrFits src parts lit i r := by
  cases r with
  | error f => exact h
  | ok r =>
    obtain ⟨hlt, hle, hps⟩ := h
    exact ⟨by omega, hle, by omega⟩

omit [External] in
theorem LexFits.cons {src : Bytes} {i j pos : Nat} {t : Tok} {r : Except Fault (List Spanned)}
    (h : LexFits src j r) (hw : t.weight + (src.length - j) ≤ src.length - i) :
    LexFits src i (do
      let ts ← r
      .ok ((t, pos) :: ts)) := by
  cases r with
  | error f => exact h
  | ok ts =>
    show Tok.weight t + toksWeight ts ≤ _
    have hts : toksWeight ts ≤ (src.length - j) + 1 := h
    omega

omit [External] in
theorem LexFits.later {src : Bytes} {i j : Nat} {r : Except Fault (List Spanned)}
    (h : LexFits src j r) (hij : i ≤ j) : LexFits src i r := by
  cases r with
  | error f => exact h
  | ok ts =>
    have hts : toksWeight ts ≤ (src.length - j) + 1 := h
    show toksWeight ts ≤ (src.length - i) + 1
    omega

omit [External] in
theorem lt_of_drop {src rest : Bytes} {i : Nat} {c : UInt8} (h : src.drop i = c :: rest) :
    i + 1 + rest.length = src.length := by
  have := congrArg List.length h
  rw [List.length_drop, List.length_cons] at this
  omega

omit [External] in
theorem slice_length {src out : Bytes} {i j : Nat} (h : slice src i j = .ok out) :
    out.length ≤ j - i := by
  unfold slice at h
  split at h
  · cases h
    rw [List.length_take]
    exact Nat.min_le_left _ _
  · cases h

omit [External] in
theorem slice_ne {src : Bytes} {i j : Nat} {f : Fault} (h : slice src i j = .error f) :
    f ≠ .outOfFuel := by
  unfold slice at h
  split at h
  · cases h
  · cases h
    nofun

omit [External] in
theorem wordTok_weight (w : String) : (wordTok w).weight = 1 := by
  unfold wordTok
  split <;> rfl

mutual

theorem lexFrom_fits (src : Bytes) : ∀ fuel i, src.length - i + 1 ≤ fuel →
    LexFits src i (lexFrom src fuel i)
  | 0, i, h => by omega
  | fuel + 1, i, h => by
    unfold lexFrom
    split
    · exact Nat.le_add_left 1 _
    next c rest hdrop =>
      have hlen := lt_of_drop hdrop
      have hnext : LexFits src (i + 1) (lexFrom src fuel (i + 1)) := lexFrom_fits src fuel _ (by omega)
      split
      · exact hnext.later (Nat.le_succ i)
      split
      · exact hnext.cons (by rw [Tok.weight]; omega)
      split
      next hash =>
        have hpos : 1 ≤ ((c :: rest).takeWhile (· != byte '\n')).length := by
          rw [hash]
          simp only [List.takeWhile_cons]
          exact Nat.le_add_left 1 _
        exact (lexFrom_fits src fuel _ (by omega)).later (by omega)
      split
      · unfold lexString
        cases hbody : stringBody (i + 1) [] (src.drop (i + 1)) with
        | none => exact errAt_ne _ _ _
        | some r =>
          have hend := stringBody_end hbody
          exact (lexFrom_fits src fuel _ (by omega)).cons (by rw [Tok.weight]; omega)
      split
      · have hstr := lexFstring_fits src (i + 1) fuel [] [] (i + 2) (by omega)
        cases hrun : lexFstring src (i + 1) fuel [] [] (i + 2) with
        | error f =>
          rw [hrun] at hstr
          exact hstr
        | ok r =>
          rw [hrun] at hstr
          obtain ⟨hlt, hle, hw⟩ := hstr
          rw [partsWeight, List.length_nil] at hw
          exact (lexFrom_fits src fuel _ (by omega)).cons (by rw [Tok.weight]; omega)
      split
      next hdigit =>
        dsimp only
        split
        · exact errAt_ne _ _ _
        · have hpos : 1 ≤ ((c :: rest).takeWhile fun b => isDigitByte b || b == byte '.').length := by
            simp only [List.takeWhile_cons, hdigit, Bool.true_or]
            exact Nat.le_add_left 1 _
          exact (lexFrom_fits src fuel _ (by omega)).cons (by rw [Tok.weight]; omega)
      split
      next hword =>
        have hpos : 1 ≤ ((c :: rest).takeWhile isWordByte).length := by
          have hc : isWordByte c = true := by
            unfold isWordByte
            rcases hword with hw | hw <;> simp [hw]
          simp only [List.takeWhile_cons, hc]
          exact Nat.le_add_left 1 _
        exact (lexFrom_fits src fuel _ (by omega)).cons (by rw [wordTok_weight]; omega)
      · -- one symbol of two bytes or of one, whatever slice it is looked up by
        have hsym : ∀ two : Bytes, LexFits src i
            (match twoByte.lookup (textOf two), oneByte.lookup (Char.ofNat c.toNat) with
              | some s, _ => do
                let ts ← lexFrom src fuel (i + 2)
                .ok ((.sym s, i) :: ts)
              | none, some s => do
                let ts ← lexFrom src fuel (i + 1)
                .ok ((.sym s, i) :: ts)
              | none, none => .error (errAt i src ("unexpected character " ++
                  debugChar (Char.ofNat c.toNat)))) := by
          intro two
          split
          · exact (lexFrom_fits src fuel _ (by omega)).cons (by rw [Tok.weight]; omega)
          · exact hnext.cons (by rw [Tok.weight]; omega)
          · exact errAt_ne _ _ _
        dsimp only
        split
        · cases htwo : slice src i (i + 2) with
          | error f => exact slice_ne htwo
          | ok two => exact hsym two
        · exact hsym []

theorem lexFstring_fits (src : Bytes) (quote : Nat) : ∀ fuel parts lit i, src.length - i + 1 ≤ fuel →
    StrFits src parts lit i (lexFstring src quote fuel parts lit i)
  | 0, parts, lit, i, h => by omega
  | fuel + 1, parts, lit, i, h => by
    unfold lexFstring
    split
    · exact errAt_ne _ _ _
    next c rest hdrop =>
      have hlen := lt_of_drop hdrop
      have hone : ∀ b : UInt8, StrFits src parts lit i (lexFstring src quote fuel parts (b :: lit) (i + 1)) :=
        fun b => (lexFstring_fits src quote fuel _ _ _ (by omega)).later (Nat.lt_succ_self i) (by
          rw [List.length_cons]
          omega)
      have htwo : ∀ b : UInt8, StrFits src parts lit i (lexFstring src quote fuel parts (b :: lit) (i + 2)) :=
        fun b => (lexFstring_fits src quote fuel _ _ _ (by omega)).later (by omega) (by
          rw [List.length_cons]
          omega)
      split
      · show i < i + 1 ∧ i + 1 ≤ src.length ∧ partsWeight (flush lit parts) ≤ _
        rw [partsWeight_flush]
        exact ⟨Nat.lt_succ_self i, by omega, by omega⟩
      split
      · exact htwo c
      split
      · split
        · exact errAt_ne _ _ _
        next j hhole =>
          obtain ⟨hlo, hhi⟩ := holeEnd_end hhole
          cases hslice : slice src (i + 1) (j - 1) with
          | error f => exact slice_ne hslice
          | ok hole =>
            have hsize := slice_length hslice
            have hinner := lexFrom_fits hole fuel 0 (by omega)
            show StrFits src parts lit i (lexFrom hole fuel 0 >>= fun inner =>
              lexFstring src quote fuel (flush lit parts ++ [.expr inner]) [] j)
            cases hlex : lexFrom hole fuel 0 with
            | error f =>
              rw [hlex] at hinner
              exact hinner
            | ok inner =>
              rw [hlex] at hinner
              have hw : toksWeight inner ≤ hole.length + 1 := hinner
              refine (lexFstring_fits src quote fuel _ _ j (by omega)).later (by omega) ?_
              rw [partsWeight_append, partsWeight_flush, partsWeight, partsWeight, List.length_nil]
              omega
      · split
        · exact htwo _
        · exact hone _

end

theorem lex_ne_outOfFuel (src : Bytes) : lex src ≠ .error .outOfFuel := by
  have hfits := lexFrom_fits src (src.length + 1) 0 (Nat.le_refl _)
  intro h
  unfold lex at h
  rw [h] at hfits
  exact hfits rfl

theorem items_ne_outOfFuel {src : Bytes} {toks : List Spanned} (h : lex src = .ok toks) :
    items ⟨toks, src⟩ (parseFuel src) {} 0 ≠ .error .outOfFuel := by
  have hlex := lexFrom_fits src (src.length + 1) 0 (Nat.le_refl _)
  unfold lex at h
  rw [h] at hlex
  have hw : toksWeight toks ≤ src.length + 1 := hlex
  have hleft : Input.left ⟨toks, src⟩ 0 = toksWeight toks := rfl
  have hitems := ends_items ⟨toks, src⟩ (parseFuel src) {} 0 (by
    unfold parseFuel
    omega)
  intro hout
  unfold Ends at hitems
  rw [hout] at hitems
  exact hitems rfl

theorem parse_ne_outOfFuel (src : String) : parse src ≠ .error .outOfFuel := by
  intro h
  unfold parse parseBytes at h
  cases hlex : lex (bytesOf src) with
  | error f =>
    rw [hlex] at h
    cases h
    exact lex_ne_outOfFuel _ hlex
  | ok toks =>
    rw [hlex] at h
    have hitems := items_ne_outOfFuel hlex
    change (items ⟨toks, bytesOf src⟩ (parseFuel (bytesOf src)) {} 0 >>= _) = _ at h
    cases hd : items ⟨toks, bytesOf src⟩ (parseFuel (bytesOf src)) {} 0 with
    | error f =>
      rw [hd] at h hitems
      cases h
      exact hitems rfl
    | ok r =>
      rw [hd] at h
      cases h

end

end Vejas.Vjs
