import Vejas.Vjs.Rereading

/-! The parser looks at the tokens it takes and at most one more. Where two token lists agree, two
parsers do the same, whatever fuel they have: they read the same tree or one runs out of fuel. -/

namespace Vejas.Vjs
open Json Rust

/-- From `i` on the one and from `i'` on the other the next `n` tokens are the same. -/
def Agree (p p' : Input) (i i' n : Nat) : Prop := ∀ k, k < n → p.tokAt? (i + k) = p'.tokAt? (i' + k)

theorem Agree.mono {p p' : Input} {i i' m n : Nat} (h : Agree p p' i i' n) (hmn : m ≤ n) :
    Agree p p' i i' m := fun k hk => h k (Nat.lt_of_lt_of_le hk hmn)

theorem Agree.drop {p p' : Input} {i i' m n : Nat} (h : Agree p p' i i' (m + n)) :
    Agree p p' (i + m) (i' + m) n := by
  intro k hk
  have := h (m + k) (by omega)
  rwa [← Nat.add_assoc, ← Nat.add_assoc] at this

theorem Agree.tokAt {p p' : Input} {i i' n : Nat} (h : Agree p p' i i' n) (hn : 0 < n) :
    p'.tokAt i' = p.tokAt i := by
  unfold Input.tokAt
  rw [← Nat.add_zero i, ← Nat.add_zero i', h 0 hn]

section
variable {α β : Type}

/-- Where `m` succeeds it takes at least `d` tokens, and a reader of the same tokens, with `e` more
after them, takes the same ones and finds something related. -/
def Follows (p p' : Input) (e d : Nat) (R : α → α → Prop) (m m' : Parse α) (i i' : Nat) : Prop :=
  ∀ a j, m i = .ok (a, j) → i + d ≤ j ∧ (Agree p p' i i' (j - i + e) →
    m' i' = .error .outOfFuel ∨ ∃ a', m' i' = .ok (a', i' + (j - i)) ∧ R a a')

variable {p p' : Input} {e d i i' : Nat} {R : α → α → Prop} {S : β → β → Prop}

theorem of_parse_bind {m : Parse α} {f : α → Parse β} {b : β} {k : Nat} (h : (m >>= f) i = .ok (b, k)) :
    ∃ a j, m i = .ok (a, j) ∧ f a j = .ok (b, k) := by
  have h : StateT.bind m f i = .ok (b, k) := h
  unfold StateT.bind at h
  cases hm : m i with
  | error f =>
    rw [hm] at h
    cases h
  | ok r =>
    rw [hm] at h
    exact ⟨r.1, r.2, rfl, h⟩

theorem bind_stops {m : Parse α} {f : α → Parse β} (h : m i = .error .outOfFuel) :
    (m >>= f) i = .error .outOfFuel := by
  show StateT.bind m f i = _
  unfold StateT.bind
  rw [h]
  rfl

theorem Follows.bind {m m' : Parse α} {f f' : α → Parse β} {e₁ d₁ : Nat} (d₂ : Nat)
    (he : e₁ ≤ d₂ + e) (hd : d ≤ d₁ + d₂) (hm : Follows p p' e₁ d₁ R m m' i i') (hR : ∀ a, R a a)
    (hf : ∀ a a' j j', R a a' → Follows p p' e d₂ S (f a) (f' a') j j') :
    Follows p p' e d S (m >>= f) (m' >>= f') i i' := by
  intro b k hrun
  obtain ⟨a, j, hmi, hfj⟩ := of_parse_bind hrun
  obtain ⟨hij, hsame⟩ := hm a j hmi
  obtain ⟨hjk, -⟩ := hf a a j 0 (hR a) b k hfj
  refine ⟨by omega, fun hag => ?_⟩
  rcases hsame (hag.mono (by omega)) with hout | ⟨a', hm', ha⟩
  · exact .inl (bind_stops hout)
  · obtain ⟨-, hsame'⟩ := hf a a' j (i' + (j - i)) ha b k hfj
    have hag' : Agree p p' j (i' + (j - i)) (k - j + e) := by
      have hsplit : k - i + e = (j - i) + (k - j + e) := by omega
      rw [hsplit] at hag
      have := hag.drop
      rwa [show i + (j - i) = j by omega] at this
    rw [bind_run hm']
    rcases hsame' hag' with hout | ⟨b', hf', hb⟩
    · exact .inl hout
    · refine .inr ⟨b', ?_, hb⟩
      rw [hf', show i' + (j - i) + (k - j) = i' + (k - i) by omega]

theorem Follows.empty {m m' : Parse α} (h : Follows p p' e d R m m' i i') :
    Follows p p' e d R m (throw .outOfFuel) i i' :=
  fun a j hrun => ⟨(h a j hrun).1, fun _ => .inl rfl⟩

theorem Follows.fuel {m : Parse α} (F : Nat → Parse α) (hzero : F 0 = throw .outOfFuel)
    (h : ∀ n, Follows p p' e d R m (F (n + 1)) i i') : ∀ n, Follows p p' e d R m (F n) i i'
  | 0 => by
    rw [hzero]
    exact (h 0).empty
  | n + 1 => h n

theorem Follows.mono {m m' : Parse α} {e' d' : Nat} {R' : α → α → Prop}
    (h : Follows p p' e d R m m' i i') (he : e ≤ e') (hd : d' ≤ d) (hR : ∀ a a', R a a' → R' a a') :
    Follows p p' e' d' R' m m' i i' := by
  intro a j hrun
  obtain ⟨hij, hsame⟩ := h a j hrun
  refine ⟨by omega, fun hag => ?_⟩
  rcases hsame (hag.mono (by omega)) with hout | ⟨a', hm', ha⟩
  · exact .inl hout
  · exact .inr ⟨a', hm', hR _ _ ha⟩

theorem follows_pure {a a' : α} (h : R a a') : Follows p p' e 0 R (pure a) (pure a') i i' := by
  intro b j hrun
  cases hrun
  refine ⟨Nat.le_refl _, fun _ => .inr ⟨a', ?_, h⟩⟩
  rw [Nat.sub_self]
  rfl

theorem follows_fail (msg : String) (m' : Parse α) : Follows p p' e d R (p.fail msg) m' i i' := by
  intro a j hrun
  cases hrun

theorem follows_throw (f : Fault) (m' : Parse α) : Follows p p' e d R (throw f) m' i i' := by
  intro a j hrun
  cases hrun

theorem Follows.peek {f f' : Tok → Parse β} (hn : 0 < d + e)
    (h : ∀ t, p.tokAt i = t → Follows p p' e d S (f t) (f' t) i i') :
    Follows p p' e d S (p.peek >>= f) (p'.peek >>= f') i i' := by
  intro b j hrun
  have hrun : f (p.tokAt i) i = .ok (b, j) := hrun
  obtain ⟨hij, hsame⟩ := h _ rfl b j hrun
  refine ⟨hij, fun hag => ?_⟩
  have htok := hag.tokAt (by omega)
  rw [bind_run (peek_run htok)]
  exact hsame hag

theorem Follows.next {f f' : Tok → Parse β} (d₁ : Nat) (hd : d ≤ d₁ + 1)
    (h : ∀ t, p.tokAt i = t → Follows p p' e d₁ S (f t) (f' t) (i + 1) (i' + 1)) :
    Follows p p' e d S (p.next >>= f) (p'.next >>= f') i i' := by
  intro b j hrun
  have hrun : f (p.tokAt i) (i + 1) = .ok (b, j) := hrun
  obtain ⟨hij, hsame⟩ := h _ rfl b j hrun
  refine ⟨by omega, fun hag => ?_⟩
  have htok := hag.tokAt (by omega)
  rw [bind_run (next_run htok)]
  have hag' : Agree p p' (i + 1) (i' + 1) (j - (i + 1) + e) := by
    rw [show j - i + e = 1 + (j - (i + 1) + e) by omega] at hag
    exact hag.drop
  have := hsame hag'
  rwa [show i' + 1 + (j - (i + 1)) = i' + (j - i) by omega] at this

theorem Follows.advance {f f' : Unit → Parse β} (d₁ : Nat) (hd : d ≤ d₁ + 1)
    (h : Follows p p' e d₁ S (f ()) (f' ()) (i + 1) (i' + 1)) :
    Follows p p' e d S (Input.advance >>= f) (Input.advance >>= f') i i' := by
  have hnext : Follows p p' e d S (p.next >>= fun _ => f ()) (p'.next >>= fun _ => f' ()) i i' :=
    Follows.next d₁ hd fun _ _ => h
  exact hnext

theorem Follows.pos {f f' : Nat → Parse β} (h : ∀ n n', Follows p p' e d S (f n) (f' n') i i') :
    Follows p p' e d S (p.pos >>= f) (p'.pos >>= f') i i' := h _ _

theorem Follows.sees {s : Sym} {f f' : Bool → Parse β} (hn : 0 < d + e)
    (h : ∀ b, (p.tokAt i).is s = b → Follows p p' e d S (f b) (f' b) i i') :
    Follows p p' e d S (p.sees s >>= f) (p'.sees s >>= f') i i' := by
  have hpeek : Follows p p' e d S (p.peek >>= fun t => f (t.is s)) (p'.peek >>= fun t => f' (t.is s)) i i' :=
    Follows.peek hn fun t ht => h _ (by rw [ht])
  exact hpeek

theorem Follows.peek2 {f f' : Option Tok → Parse β} (hn : 2 ≤ d + e)
    (h : ∀ t, p.tokAt? (i + 1) = t → Follows p p' e d S (f t) (f' t) i i') :
    Follows p p' e d S (p.peek2 >>= f) (p'.peek2 >>= f') i i' := by
  intro b j hrun
  have hrun : f (p.tokAt? (i + 1)) i = .ok (b, j) := hrun
  obtain ⟨hij, hsame⟩ := h _ rfl b j hrun
  refine ⟨hij, fun hag => ?_⟩
  have hpeek : p'.peek2 i' = .ok (p.tokAt? (i + 1), i') := by
    rw [hag 1 (by omega)]
    rfl
  rw [bind_run hpeek]
  exact hsame hag

theorem Follows.atEnd {f f' : Bool → Parse β} (hn : 2 ≤ d + e) (hfail : ∀ r, f true i ≠ .ok r)
    (h : Follows p p' e d S (f false) (f' false) i i') :
    Follows p p' e d S (p.atEnd >>= f) (p'.atEnd >>= f') i i' := by
  intro b j hrun
  have hrun : f (decide (p.toks.length - 1 ≤ i)) i = .ok (b, j) := hrun
  by_cases hend : p.toks.length - 1 ≤ i
  · rw [decide_eq_true hend] at hrun
    exact absurd hrun (hfail _)
  rw [decide_eq_false hend] at hrun
  obtain ⟨hij, hsame⟩ := h b j hrun
  refine ⟨hij, fun hag => ?_⟩
  have hlt : i' + 1 < p'.toks.length := by
    have hnext := hag 1 (by omega)
    unfold Input.tokAt? at hnext
    rw [List.getElem?_eq_getElem (by omega)] at hnext
    cases hget : p'.toks[i' + 1]? with
    | none =>
      rw [hget] at hnext
      cases hnext
    | some t => exact (List.getElem?_eq_some_iff.mp hget).1
  have hat : p'.atEnd i' = .ok (false, i') := by
    unfold Input.atEnd
    rw [decide_eq_false (by omega)]
  rw [bind_run hat]
  exact hsame hag

theorem Tok.eq_of_is {t : Tok} {s : Sym} (h : t.is s = true) : t = .sym s := by
  cases t with
  | sym s' => rw [beq_iff_eq.mp h]
  | _ => cases h

theorem Follows.accept {s : Sym} {f f' : Bool → Parse β} (d₁ : Nat) (hn : 0 < d + e) (hd : d ≤ d₁ + 1)
    (htrue : p.tokAt i = .sym s → Follows p p' e d₁ S (f true) (f' true) (i + 1) (i' + 1))
    (hfalse : (p.tokAt i).is s = false → Follows p p' e d S (f false) (f' false) i i') :
    Follows p p' e d S (p.accept s >>= f) (p'.accept s >>= f') i i' := by
  cases hs : (p.tokAt i).is s with
  | true =>
    have hnext : Follows p p' e d S (p.next >>= fun _ => f true) (p'.next >>= fun _ => f' true) i i' :=
      Follows.next d₁ hd fun _ _ => htrue (Tok.eq_of_is hs)
    intro b j hrun
    rw [bind_run (accept_true hs)] at hrun
    obtain ⟨hij, hsame⟩ := hnext b j hrun
    refine ⟨hij, fun hag => ?_⟩
    rw [bind_run (accept_true (by rw [hag.tokAt (by omega), hs]))]
    exact hsame hag
  | false =>
    intro b j hrun
    rw [bind_run (accept_false hs)] at hrun
    obtain ⟨hij, hsame⟩ := hfalse hs b j hrun
    refine ⟨hij, fun hag => ?_⟩
    rw [bind_run (accept_false (by rw [hag.tokAt (by omega), hs]))]
    exact hsame hag

theorem length_takeWhile_iff {γ : Type} {f : γ → Bool} {l : List γ} {n : Nat} :
    (l.takeWhile f).length = n ↔
      (∀ x, x < n → ∃ t, l[x]? = some t ∧ f t = true) ∧ ∀ t, l[n]? = some t → f t = false := by
  induction l generalizing n with
  | nil =>
    constructor
    · rintro rfl
      exact ⟨nofun, nofun⟩
    · rintro ⟨hall, -⟩
      cases n with
      | zero => rfl
      | succ n =>
        obtain ⟨t, ht, -⟩ := hall 0 (Nat.succ_pos n)
        cases ht
  | cons a l ih =>
    cases ha : f a with
    | false =>
      rw [List.takeWhile_cons, if_neg (by simp [ha])]
      constructor
      · rintro rfl
        refine ⟨nofun, ?_⟩
        rintro t ⟨⟩
        exact ha
      · rintro ⟨hall, -⟩
        cases n with
        | zero => rfl
        | succ n =>
          obtain ⟨t, ht, hf⟩ := hall 0 (Nat.succ_pos n)
          cases ht
          rw [ha] at hf
          cases hf
    | true =>
      rw [List.takeWhile_cons, if_pos ha, List.length_cons]
      cases n with
      | zero =>
        constructor
        · nofun
        · rintro ⟨-, hend⟩
          have := hend a rfl
          rw [ha] at this
          cases this
      | succ n =>
        rw [Nat.add_right_cancel_iff, ih]
        constructor
        · rintro ⟨hall, hend⟩
          refine ⟨?_, hend⟩
          intro x hx
          cases x with
          | zero => exact ⟨a, rfl, ha⟩
          | succ x => exact hall x (Nat.lt_of_succ_lt_succ hx)
        · rintro ⟨hall, hend⟩
          exact ⟨fun x hx => hall (x + 1) (Nat.succ_lt_succ hx), hend⟩

theorem skipNewlines_iff {q : Input} {k l : Nat} : q.skipNewlines k = .ok ((), l) ↔
    k ≤ l ∧ (∀ x, x < l - k → ∃ t, q.tokAt? (k + x) = some t ∧ t.is .newline = true) ∧
      ∀ t, q.tokAt? l = some t → t.is .newline = false := by
  have hget : ∀ x, q.tokAt? (k + x) = (q.toks.drop k)[x]?.map (·.1) := by
    intro x
    rw [List.getElem?_drop]
    rfl
  have hrun : q.skipNewlines k = .ok ((), l) ↔
      k ≤ l ∧ ((q.toks.drop k).takeWhile fun t => t.1.is .newline).length = l - k := by
    unfold Input.skipNewlines
    simp only [Except.ok.injEq, Prod.mk.injEq, true_and]
    omega
  rw [hrun, length_takeWhile_iff]
  refine and_congr_right fun hkl => and_congr ?_ ?_
  · refine forall_congr' fun x => imp_congr_right fun _ => ?_
    rw [hget]
    simp
  · rw [← Nat.add_sub_cancel' hkl, hget, Nat.add_sub_cancel_left]
    simp

theorem follows_skipNewlines : Follows p p' 1 0 Eq p.skipNewlines p'.skipNewlines i i' := by
  intro a j hrun
  obtain ⟨hij, hnew, hend⟩ := skipNewlines_iff.mp hrun
  refine ⟨hij, fun hag => .inr ⟨(), ?_, rfl⟩⟩
  rw [skipNewlines_iff]
  refine ⟨Nat.le_add_right _ _, ?_, ?_⟩
  · intro x hx
    rw [← hag x (by omega)]
    exact hnew x (by omega)
  · intro t ht
    have := hag (j - i) (by omega)
    rw [show i + (j - i) = j by omega] at this
    exact hend t (by rw [this, ht])

theorem follows_itemEnd : Follows p p' 1 0 Eq p.itemEnd p'.itemEnd i i' := by
  unfold Input.itemEnd
  refine follows_skipNewlines.bind 0 (by omega) (by omega) (fun _ => rfl) fun _ _ j j' _ => ?_
  refine Follows.accept 0 (by omega) (by omega) (fun _ => ?_) fun _ => ?_
  · exact follows_skipNewlines
  · exact follows_pure rfl

variable [External]

theorem follows_eat {s : Sym} {what : String} :
    Follows p p' 0 1 Eq (p.eat s what) (p'.eat s what) i i' := by
  unfold Input.eat
  refine Follows.peek (by omega) fun t ht => ?_
  split
  · have hadvance : Follows p p' 0 1 Eq (Input.advance >>= pure) (Input.advance >>= pure) i i' :=
      Follows.advance 0 (by omega) (follows_pure rfl)
    exact hadvance
  · exact follows_fail _ _

theorem eat_ok {s : Sym} {what : String} {u : Unit} {j : Nat} (h : p.eat s what i = .ok (u, j)) :
    p.tokAt i = .sym s ∧ j = i + 1 := by
  unfold Input.eat at h
  rw [bind_run (peek_run rfl)] at h
  cases his : (p.tokAt i).is s with
  | true =>
    rw [his] at h
    cases h
    exact ⟨Tok.eq_of_is his, rfl⟩
  | false =>
    rw [his] at h
    cases h

theorem follows_word {what : String} :
    Follows p p' 0 1 Eq (p.word what) (p'.word what) i i' := by
  unfold Input.word
  refine Follows.peek (by omega) fun t ht => ?_
  dsimp only
  split
  · exact Follows.advance 0 (by omega) (follows_pure rfl)
  · exact follows_fail _ _

end

section
variable [External]

def SameLiteral (l l' : Literal) : Prop := l.1 = l'.1 ∧ l.2.1.map (·.1) = l'.2.1.map (·.1)

def SameTable (r r' : Map × List (String × Span)) : Prop :=
  r.1 = r'.1 ∧ r.2.map (·.1) = r'.2.map (·.1)

variable (p p' : Input)

mutual

theorem follows_literalValue : ∀ fuel fuel' i i',
    Follows p p' 0 1 SameLiteral (literalValue p fuel) (literalValue p' fuel') i i'
  | 0, fuel', i, i' => follows_throw _ _
  | fuel + 1, fuel', i, i' => by
    refine Follows.fuel (fun n => literalValue p' n) rfl (fun n => ?_) fuel'
    unfold literalValue
    refine Follows.next 0 (by omega) fun t _ => ?_
    split
    · exact Follows.pos fun _ _ => follows_pure ⟨rfl, rfl⟩
    · exact Follows.pos fun _ _ => follows_pure ⟨rfl, rfl⟩
    · exact Follows.pos fun _ _ => follows_pure ⟨rfl, rfl⟩
    · exact Follows.pos fun _ _ => follows_pure ⟨rfl, rfl⟩
    · exact Follows.pos fun _ _ => follows_pure ⟨rfl, rfl⟩
    · refine Follows.next 0 (by omega) fun u _ => ?_
      split
      · exact Follows.pos fun _ _ => follows_pure ⟨rfl, rfl⟩
      · exact follows_fail _ _
    · refine follows_skipNewlines.bind 1 (by omega) (by omega) (fun _ => rfl) fun _ _ j j' _ => ?_
      refine (follows_literalItems fuel n j j').bind 0 (by omega) (by omega) (fun _ => rfl) ?_
      rintro vs _ k k' rfl
      exact Follows.pos fun _ _ => follows_pure ⟨rfl, rfl⟩
    · refine follows_skipNewlines.bind 1 (by omega) (by omega) (fun _ => rfl) fun _ _ j j' _ => ?_
      refine (follows_literalFields fuel n [] [] [] rfl j j').bind 0 (by omega) (by omega)
        (fun _ => ⟨rfl, rfl⟩) ?_
      rintro r r' k k' ⟨hmap, hspans⟩
      exact Follows.pos fun _ _ => follows_pure ⟨congrArg Value.object hmap, hspans⟩
    · exact follows_fail _ _

theorem follows_literalItems : ∀ fuel fuel' i i',
    Follows p p' 0 1 Eq (literalItems p fuel) (literalItems p' fuel') i i'
  | 0, fuel', i, i' => follows_throw _ _
  | fuel + 1, fuel', i, i' => by
    refine Follows.fuel (fun n => literalItems p' n) rfl (fun n => ?_) fuel'
    unfold literalItems
    refine Follows.accept 0 (by omega) (by omega) (fun _ => follows_pure rfl) fun _ => ?_
    refine (follows_literalValue fuel n i i').bind 1 (by omega) (by omega) (fun _ => ⟨rfl, rfl⟩) ?_
    rintro l l' j j' ⟨hval, -⟩
    dsimp only
    refine follows_itemEnd.bind 1 (by omega) (by omega) (fun _ => rfl) fun _ _ k k' _ => ?_
    refine (follows_literalItems fuel n k k').bind 0 (by omega) (by omega) (fun _ => rfl) ?_
    rintro vs _ _ _ rfl
    rw [hval]
    exact follows_pure rfl

theorem follows_literalFields : ∀ fuel fuel' map spans spans', spans.map (·.1) = spans'.map (·.1) →
    ∀ i i', Follows p p' 0 1 SameTable (literalFields p fuel map spans)
      (literalFields p' fuel' map spans') i i'
  | 0, fuel', map, spans, spans', hspans, i, i' => follows_throw _ _
  | fuel + 1, fuel', map, spans, spans', hspans, i, i' => by
    refine Follows.fuel (fun n => literalFields p' n map spans') rfl (fun n => ?_) fuel'
    rw [literalFields, literalFields]
    refine Follows.accept 0 (by omega) (by omega) (fun _ => follows_pure ⟨rfl, hspans⟩) fun _ => ?_
    refine follows_word.bind 1 (by omega) (by omega) (fun _ => rfl) ?_
    rintro key _ j j' rfl
    refine follows_eat.bind 1 (by omega) (by omega) (fun _ => rfl) fun _ _ k k' _ => ?_
    refine Follows.pos fun s s' => ?_
    refine (follows_literalValue fuel n k k').bind 1 (by omega) (by omega) (fun _ => ⟨rfl, rfl⟩) ?_
    rintro l l' x x' ⟨hval, -⟩
    dsimp only
    refine Follows.pos fun t t' => ?_
    refine follows_itemEnd.bind 1 (by omega) (by omega) (fun _ => rfl) fun _ _ y y' _ => ?_
    rw [hval]
    refine follows_literalFields fuel n _ _ _ ?_ y y'
    rw [List.map_append, List.map_append, hspans]
    rfl

end

end

section
variable [External]

mutual

theorem follows_expr : ∀ fuel fuel' (p p' : Input) bp i i',
    Follows p p' 1 1 Eq (expr fuel p bp) (expr fuel' p' bp) i i'
  | 0, fuel', p, p', bp, i, i' => by
    rw [expr]
    exact follows_throw _ _
  | fuel + 1, fuel', p, p', bp, i, i' => by
    refine Follows.fuel (fun n => expr n p' bp) (by rw [expr]) (fun n => ?_) fuel'
    rw [expr, expr]
    refine (follows_primary fuel n p p' i i').bind 0 (by omega) (by omega) (fun _ => rfl) ?_
    rintro lhs _ j j' rfl
    refine (follows_postfixes fuel n p p' lhs j j').bind 0 (by omega) (by omega) (fun _ => rfl) ?_
    rintro lhs _ k k' rfl
    exact follows_operators fuel n p p' bp lhs k k'

theorem follows_primary : ∀ fuel fuel' (p p' : Input) i i',
    Follows p p' 1 1 Eq (primary fuel p) (primary fuel' p') i i'
  | 0, fuel', p, p', i, i' => by
    rw [primary]
    exact follows_throw _ _
  | fuel + 1, fuel', p, p', i, i' => by
    refine Follows.fuel (fun n => primary n p') (by rw [primary]) (fun n => ?_) fuel'
    rw [primary, primary]
    refine Follows.next 0 (by omega) fun t _ => ?_
    split
    · exact follows_pure rfl
    · exact follows_pure rfl
    · exact follows_pure rfl
    · exact follows_pure rfl
    · exact follows_pure rfl
    · refine (follows_holes fuel n p p' p.src p'.src _ _ _).bind 0 (by omega) (by omega) (fun _ => rfl) ?_
      rintro ps _ j j' rfl
      exact follows_pure rfl
    · refine (follows_expr fuel n p p' 9 _ _).bind 0 (by omega) (by omega) (fun _ => rfl) ?_
      rintro x _ j j' rfl
      exact follows_pure rfl
    · refine (follows_expr fuel n p p' 9 _ _).bind 0 (by omega) (by omega) (fun _ => rfl) ?_
      rintro x _ j j' rfl
      exact follows_pure rfl
    · exact follows_pure rfl
    · exact follows_pure rfl
    · exact follows_pure rfl
    · exact follows_pure rfl
    · refine (follows_invokeArgs fuel n p p' _ _).bind 0 (by omega) (by omega) (fun _ => rfl) ?_
      rintro r _ j j' rfl
      exact follows_pure rfl
    · refine (follows_expr fuel n p p' 0 _ _).bind 0 (by omega) (by omega) (fun _ => rfl) ?_
      rintro x _ j j' rfl
      refine follows_eat.bind 0 (by omega) (by omega) (fun _ => rfl) fun _ _ k k' _ => ?_
      exact follows_pure rfl
    · refine follows_skipNewlines.bind 0 (by omega) (by omega) (fun _ => rfl) fun _ _ j j' _ => ?_
      refine (follows_exprItems fuel n p p' j j').bind 0 (by omega) (by omega) (fun _ => rfl) ?_
      rintro xs _ k k' rfl
      exact follows_pure rfl
    · refine follows_skipNewlines.bind 0 (by omega) (by omega) (fun _ => rfl) fun _ _ j j' _ => ?_
      refine (follows_exprFields fuel n p p' j j').bind 0 (by omega) (by omega) (fun _ => rfl) ?_
      rintro xs _ k k' rfl
      exact follows_pure rfl
    · refine Follows.accept 0 (by omega) (by omega) (fun _ => ?_) fun _ => follows_pure rfl
      refine (follows_callArgs fuel n p p' _ _).bind 0 (by omega) (by omega) (fun _ => rfl) ?_
      rintro xs _ k k' rfl
      exact follows_pure rfl
    · exact follows_fail _ _

theorem follows_holes : ∀ fuel fuel' (p p' : Input) (src src' : Bytes) (parts : List FPart) i i',
    Follows p p' 0 0 Eq (holes fuel src parts) (holes fuel' src' parts) i i'
  | 0, fuel', p, p', src, src', parts, i, i' => by
    rw [holes]
    exact follows_throw _ _
  | fuel + 1, fuel', p, p', src, src', [], i, i' => by
    refine Follows.fuel (fun n => holes n src' []) (by rw [holes]) (fun n => ?_) fuel'
    rw [holes, holes]
    exact follows_pure rfl
  | fuel + 1, fuel', p, p', src, src', .lit s :: ps, i, i' => by
    refine Follows.fuel (fun n => holes n src' (.lit s :: ps)) (by rw [holes]) (fun n => ?_) fuel'
    rw [holes, holes]
    refine (follows_holes fuel n p p' src src' ps i i').bind 0 (by omega) (by omega) (fun _ => rfl) ?_
    rintro rest _ j j' rfl
    exact follows_pure rfl
  | fuel + 1, fuel', p, p', src, src', .expr toks :: ps, i, i' => by
    refine Follows.fuel (fun n => holes n src' (.expr toks :: ps)) (by rw [holes]) (fun n => ?_) fuel'
    rw [holes, holes]
    intro a j hrun
    dsimp only at hrun
    cases hx : expr fuel ⟨toks, src⟩ 0 0 with
    | error f =>
      rw [hx] at hrun
      cases hrun
    | ok r =>
      rw [hx] at hrun
      have hrest : Follows p p' 0 0 Eq
          (do pure (FStringPart.expr r.1 :: (← holes fuel src ps)) : Parse (List FStringPart))
          (do pure (FStringPart.expr r.1 :: (← holes n src' ps)) : Parse (List FStringPart)) i i' := by
        refine (follows_holes fuel n p p' src src' ps i i').bind 0 (by omega) (by omega) (fun _ => rfl) ?_
        rintro rest _ j j' rfl
        exact follows_pure rfl
      obtain ⟨hij, hsame⟩ := hrest a j hrun
      refine ⟨hij, fun hag => ?_⟩
      obtain ⟨-, hexpr⟩ := follows_expr fuel n ⟨toks, src⟩ ⟨toks, src'⟩ 0 0 0 r.1 r.2 hx
      dsimp only
      rcases hexpr fun k _ => rfl with hout | ⟨_, hx', rfl⟩
      · rw [hout]
        exact .inl rfl
      · rw [hx']
        exact hsame hag

theorem follows_exprItems : ∀ fuel fuel' (p p' : Input) i i',
    Follows p p' 0 1 Eq (exprItems fuel p) (exprItems fuel' p') i i'
  | 0, fuel', p, p', i, i' => by
    rw [exprItems]
    exact follows_throw _ _
  | fuel + 1, fuel', p, p', i, i' => by
    refine Follows.fuel (fun n => exprItems n p') (by rw [exprItems]) (fun n => ?_) fuel'
    rw [exprItems, exprItems]
    refine Follows.accept 0 (by omega) (by omega) (fun _ => follows_pure rfl) fun _ => ?_
    refine (follows_expr fuel n p p' 0 i i').bind 1 (by omega) (by omega) (fun _ => rfl) ?_
    rintro x _ j j' rfl
    refine follows_itemEnd.bind 1 (by omega) (by omega) (fun _ => rfl) fun _ _ k k' _ => ?_
    refine (follows_exprItems fuel n p p' k k').bind 0 (by omega) (by omega) (fun _ => rfl) ?_
    rintro xs _ _ _ rfl
    exact follows_pure rfl

theorem follows_exprFields : ∀ fuel fuel' (p p' : Input) i i',
    Follows p p' 0 1 Eq (exprFields fuel p) (exprFields fuel' p') i i'
  | 0, fuel', p, p', i, i' => by
    rw [exprFields]
    exact follows_throw _ _
  | fuel + 1, fuel', p, p', i, i' => by
    refine Follows.fuel (fun n => exprFields n p') (by rw [exprFields]) (fun n => ?_) fuel'
    rw [exprFields, exprFields]
    refine Follows.accept 0 (by omega) (by omega) (fun _ => follows_pure rfl) fun _ => ?_
    refine follows_word.bind 1 (by omega) (by omega) (fun _ => rfl) ?_
    rintro key _ j j' rfl
    refine follows_eat.bind 1 (by omega) (by omega) (fun _ => rfl) fun _ _ k k' _ => ?_
    refine (follows_expr fuel n p p' 0 k k').bind 1 (by omega) (by omega) (fun _ => rfl) ?_
    rintro x _ y y' rfl
    refine follows_itemEnd.bind 1 (by omega) (by omega) (fun _ => rfl) fun _ _ z z' _ => ?_
    refine (follows_exprFields fuel n p p' z z').bind 0 (by omega) (by omega) (fun _ => rfl) ?_
    rintro xs _ _ _ rfl
    exact follows_pure rfl

theorem follows_callArgs : ∀ fuel fuel' (p p' : Input) i i',
    Follows p p' 0 1 Eq (callArgs fuel p) (callArgs fuel' p') i i'
  | 0, fuel', p, p', i, i' => by
    rw [callArgs]
    exact follows_throw _ _
  | fuel + 1, fuel', p, p', i, i' => by
    refine Follows.fuel (fun n => callArgs n p') (by rw [callArgs]) (fun n => ?_) fuel'
    rw [callArgs, callArgs]
    refine Follows.accept 0 (by omega) (by omega) (fun _ => follows_pure rfl) fun _ => ?_
    refine (follows_expr fuel n p p' 0 i i').bind 1 (by omega) (by omega) (fun _ => rfl) ?_
    rintro x _ j j' rfl
    have hrest : ∀ k k', Follows p p' 0 1 Eq
        (do pure (x :: (← callArgs fuel p)) : Parse (List Expr))
        (do pure (x :: (← callArgs n p')) : Parse (List Expr)) k k' := by
      intro k k'
      refine (follows_callArgs fuel n p p' k k').bind 0 (by omega) (by omega) (fun _ => rfl) ?_
      rintro xs _ _ _ rfl
      exact follows_pure rfl
    exact Follows.accept 1 (by omega) (by omega) (fun _ => hrest _ _) fun _ => hrest _ _

theorem follows_namedArgs : ∀ fuel fuel' (p p' : Input) i i',
    Follows p p' 0 1 Eq (namedArgs fuel p) (namedArgs fuel' p') i i'
  | 0, fuel', p, p', i, i' => by
    rw [namedArgs]
    exact follows_throw _ _
  | fuel + 1, fuel', p, p', i, i' => by
    refine Follows.fuel (fun n => namedArgs n p') (by rw [namedArgs]) (fun n => ?_) fuel'
    rw [namedArgs, namedArgs]
    refine Follows.accept 0 (by omega) (by omega) (fun _ => follows_pure rfl) fun _ => ?_
    refine follows_word.bind 1 (by omega) (by omega) (fun _ => rfl) ?_
    rintro key _ j j' rfl
    refine follows_eat.bind 1 (by omega) (by omega) (fun _ => rfl) fun _ _ k k' _ => ?_
    refine (follows_expr fuel n p p' 0 k k').bind 1 (by omega) (by omega) (fun _ => rfl) ?_
    rintro x _ y y' rfl
    have hrest : ∀ z z', Follows p p' 0 1 Eq
        (do pure ((key, x) :: (← namedArgs fuel p)) : Parse (List (String × Expr)))
        (do pure ((key, x) :: (← namedArgs n p')) : Parse (List (String × Expr))) z z' := by
      intro z z'
      refine (follows_namedArgs fuel n p p' z z').bind 0 (by omega) (by omega) (fun _ => rfl) ?_
      rintro xs _ _ _ rfl
      exact follows_pure rfl
    exact Follows.accept 1 (by omega) (by omega) (fun _ => hrest _ _) fun _ => hrest _ _

theorem follows_invokeArgs : ∀ fuel fuel' (p p' : Input) i i',
    Follows p p' 0 1 Eq (invokeArgs fuel p) (invokeArgs fuel' p') i i'
  | 0, fuel', p, p', i, i' => by
    rw [invokeArgs]
    exact follows_throw _ _
  | fuel + 1, fuel', p, p', i, i' => by
    refine Follows.fuel (fun n => invokeArgs n p') (by rw [invokeArgs]) (fun n => ?_) fuel'
    rw [invokeArgs, invokeArgs]
    refine Follows.next 1 (by omega) fun t _ => ?_
    split
    next svc =>
      have hargs : ∀ (name : String) j j', Follows p p' 0 1 Eq (do
          p.eat .lParen "("
          let args ← namedArgs fuel p
          pure (name, args)) (do
          p'.eat .lParen "("
          let args ← namedArgs n p'
          pure (name, args)) j j' := by
        intro name j j'
        refine follows_eat.bind 1 (by omega) (by omega) (fun _ => rfl) fun _ _ k k' _ => ?_
        refine (follows_namedArgs fuel n p p' k k').bind 0 (by omega) (by omega) (fun _ => rfl) ?_
        rintro args _ _ _ rfl
        exact follows_pure rfl
      refine Follows.sees (by omega) fun b hb => ?_
      cases b with
      | false => exact hargs _ _ _
      | true =>
        -- a colon that no name follows is no parenthesis either
        refine Follows.mono (e := 0) (d := 2) (R := Eq) ?_ (by omega) (by omega) fun _ _ h => h
        refine Follows.peek2 (by omega) fun u _ => ?_
        dsimp only
        split
        · refine Follows.advance 2 (by omega) ?_
          exact Follows.advance 1 (by omega) (hargs _ _ _)
        · intro a j hrun
          obtain ⟨_, _, hpure, hrun⟩ := of_parse_bind hrun
          cases hpure
          obtain ⟨_, _, heat, -⟩ := of_parse_bind hrun
          have hparen := (eat_ok heat).1
          rw [Tok.eq_of_is hb] at hparen
          cases hparen
    · exact follows_fail _ _

theorem follows_postfixes : ∀ fuel fuel' (p p' : Input) lhs i i',
    Follows p p' 1 0 Eq (postfixes fuel p lhs) (postfixes fuel' p' lhs) i i'
  | 0, fuel', p, p', lhs, i, i' => by
    rw [postfixes]
    exact follows_throw _ _
  | fuel + 1, fuel', p, p', lhs, i, i' => by
    refine Follows.fuel (fun n => postfixes n p' lhs) (by rw [postfixes]) (fun n => ?_) fuel'
    rw [postfixes, postfixes]
    refine Follows.peek (by omega) fun t _ => ?_
    split
    · refine Follows.advance 0 (by omega) ?_
      refine follows_word.bind 0 (by omega) (by omega) (fun _ => rfl) ?_
      rintro f _ j j' rfl
      exact follows_postfixes fuel n p p' _ j j'
    · refine Follows.advance 0 (by omega) ?_
      refine follows_word.bind 0 (by omega) (by omega) (fun _ => rfl) ?_
      rintro f _ j j' rfl
      exact follows_postfixes fuel n p p' _ j j'
    · refine Follows.advance 0 (by omega) ?_
      refine Follows.accept 0 (by omega) (by omega) (fun _ => follows_postfixes fuel n p p' _ _ _) fun _ => ?_
      refine (follows_expr fuel n p p' 0 _ _).bind 0 (by omega) (by omega) (fun _ => rfl) ?_
      rintro x _ j j' rfl
      refine follows_eat.bind 0 (by omega) (by omega) (fun _ => rfl) fun _ _ k k' _ => ?_
      exact follows_postfixes fuel n p p' _ k k'
    · exact follows_pure rfl

theorem follows_operators : ∀ fuel fuel' (p p' : Input) bp lhs i i',
    Follows p p' 1 0 Eq (operators fuel p bp lhs) (operators fuel' p' bp lhs) i i'
  | 0, fuel', p, p', bp, lhs, i, i' => by
    rw [operators]
    exact follows_throw _ _
  | fuel + 1, fuel', p, p', bp, lhs, i, i' => by
    refine Follows.fuel (fun n => operators n p' bp lhs) (by rw [operators]) (fun n => ?_) fuel'
    rw [operators, operators]
    refine Follows.peek (by omega) fun t _ => ?_
    split
    · exact follows_pure rfl
    · split
      · exact follows_pure rfl
      · refine Follows.advance 0 (by omega) ?_
        refine (follows_expr fuel n p p' _ _ _).bind 0 (by omega) (by omega) (fun _ => rfl) ?_
        rintro rhs _ j j' rfl
        exact follows_operators fuel n p p' bp _ j j'

end

end

mutual

def Stmt.bare : Stmt → Stmt
  | .ite arms otherwise => .ite (bareArms arms) (bareElse otherwise)
  | .loop x iter body => .loop x iter (bareBody body)
  | .assign path e => .assign path e
  | .emit subject payload => .emit subject payload
  | .respond status body => .respond status body
  | .invokeMerge name args => .invokeMerge name args

def bareArms : List (Expr × Span × List Stmt) → List (Expr × Span × List Stmt)
  | [] => []
  | (c, _, body) :: arms => (c, (0, 0), bareBody body) :: bareArms arms

def bareElse : Option (List Stmt) → Option (List Stmt)
  | none => none
  | some body => some (bareBody body)

def bareBody : List Stmt → List Stmt
  | [] => []
  | s :: ss => s.bare :: bareBody ss

end

theorem bareArms_append (arms arms' : List (Expr × Span × List Stmt)) :
    bareArms (arms ++ arms') = bareArms arms ++ bareArms arms' := by
  induction arms with
  | nil => rfl
  | cons arm arms ih => rw [List.cons_append, bareArms, bareArms, ih, List.cons_append]

section
variable [External] (p p' : Input)

theorem follows_pathTail : ∀ fuel fuel' i i',
    Follows p p' 1 0 Eq (pathTail p fuel) (pathTail p' fuel') i i'
  | 0, fuel', i, i' => follows_throw _ _
  | fuel + 1, fuel', i, i' => by
    refine Follows.fuel (fun n => pathTail p' n) rfl (fun n => ?_) fuel'
    rw [pathTail, pathTail]
    refine Follows.accept 0 (by omega) (by omega) (fun _ => ?_) fun _ => follows_pure rfl
    refine follows_word.bind 0 (by omega) (by omega) (fun _ => rfl) ?_
    rintro w _ j j' rfl
    refine (follows_pathTail fuel n j j').bind 0 (by omega) (by omega) (fun _ => rfl) ?_
    rintro ws _ _ _ rfl
    exact follows_pure rfl

theorem follows_condition (fuel fuel' i i' : Nat) :
    Follows p p' 0 1 (fun c c' => c.1 = c'.1) (condition p fuel) (condition p' fuel') i i' := by
  unfold condition
  refine Follows.pos fun _ _ => ?_
  refine (follows_expr fuel fuel' p p' 0 i i').bind 1 (by omega) (by omega) (fun _ => rfl) ?_
  rintro c _ j j' rfl
  refine Follows.pos fun _ _ => ?_
  refine follows_eat.bind 0 (by omega) (by omega) (fun _ => rfl) fun _ _ k k' _ => ?_
  exact follows_pure rfl

def SameStmt (s s' : Stmt) : Prop := s.bare = s'.bare

def SameBody (ss ss' : List Stmt) : Prop := bareBody ss = bareBody ss'

mutual

theorem follows_stmt : ∀ fuel fuel' i i',
    Follows p p' 1 1 SameStmt (stmt p fuel) (stmt p' fuel') i i'
  | 0, fuel', i, i' => follows_throw _ _
  | fuel + 1, fuel', i, i' => by
    refine Follows.fuel (fun n => stmt p' n) rfl (fun n => ?_) fuel'
    rw [stmt, stmt]
    refine Follows.peek (by omega) fun t _ => ?_
    split
    · refine Follows.advance 0 (by omega) ?_
      refine (follows_expr fuel n p p' 0 _ _).bind 0 (by omega) (by omega) (fun _ => rfl) ?_
      rintro a _ j j' rfl
      refine follows_eat.bind 0 (by omega) (by omega) (fun _ => rfl) fun _ _ k k' _ => ?_
      refine (follows_expr fuel n p p' 0 _ _).bind 0 (by omega) (by omega) (fun _ => rfl) ?_
      rintro b _ l l' rfl
      exact follows_pure rfl
    · refine Follows.advance 0 (by omega) ?_
      refine (follows_expr fuel n p p' 0 _ _).bind 0 (by omega) (by omega) (fun _ => rfl) ?_
      rintro a _ j j' rfl
      refine follows_eat.bind 0 (by omega) (by omega) (fun _ => rfl) fun _ _ k k' _ => ?_
      refine (follows_expr fuel n p p' 0 _ _).bind 0 (by omega) (by omega) (fun _ => rfl) ?_
      rintro b _ l l' rfl
      exact follows_pure rfl
    · refine Follows.advance 0 (by omega) ?_
      refine (follows_invokeArgs fuel n p p' _ _).bind 0 (by omega) (by omega) (fun _ => rfl) ?_
      rintro r _ j j' rfl
      exact follows_pure rfl
    · refine Follows.advance 0 (by omega) ?_
      refine (follows_condition p p' fuel n _ _).bind 0 (by omega) (by omega) (fun _ => rfl) ?_
      rintro ⟨c, span⟩ ⟨_, span'⟩ j j' rfl
      dsimp only
      refine (follows_block fuel n j j').bind 0 (by omega) (by omega) (fun _ => rfl) ?_
      intro body body' k k' hbody
      refine (follows_ifRest fuel n _ _ _ _ ?_ rfl k k').mono (by omega) (by omega) fun _ _ h => h
      rw [bareArms, bareArms, hbody]
      rfl
    · refine Follows.advance 0 (by omega) ?_
      refine Follows.next 0 (by omega) fun u _ => ?_
      split
      · refine follows_eat.bind 0 (by omega) (by omega) (fun _ => rfl) fun _ _ j j' _ => ?_
        refine (follows_expr fuel n p p' 0 _ _).bind 0 (by omega) (by omega) (fun _ => rfl) ?_
        rintro iter _ k k' rfl
        refine follows_eat.bind 0 (by omega) (by omega) (fun _ => rfl) fun _ _ l l' _ => ?_
        refine (follows_block fuel n l l').bind 0 (by omega) (by omega) (fun _ => rfl) ?_
        intro body body' x x' hbody
        refine follows_eat.bind 0 (by omega) (by omega) (fun _ => rfl) fun _ _ y y' _ => ?_
        refine follows_pure ?_
        show Stmt.bare _ = Stmt.bare _
        rw [Stmt.bare, Stmt.bare, hbody]
      · exact follows_fail _ _
    · refine Follows.advance 0 (by omega) ?_
      refine (follows_pathTail p p' fuel n _ _).bind 0 (by omega) (by omega) (fun _ => rfl) ?_
      rintro tail _ j j' rfl
      refine follows_eat.bind 0 (by omega) (by omega) (fun _ => rfl) fun _ _ k k' _ => ?_
      refine Follows.accept 0 (by omega) (by omega) (fun _ => ?_) fun _ => ?_
      · refine (follows_invokeArgs fuel n p p' _ _).bind 0 (by omega) (by omega) (fun _ => rfl) ?_
        rintro r _ l l' rfl
        exact follows_pure rfl
      · refine (follows_expr fuel n p p' 0 _ _).bind 0 (by omega) (by omega) (fun _ => rfl) ?_
        rintro x _ l l' rfl
        exact follows_pure rfl
    · exact follows_fail _ _

theorem follows_ifRest : ∀ fuel fuel' arms arms' otherwise otherwise', bareArms arms = bareArms arms' →
    bareElse otherwise = bareElse otherwise' → ∀ i i',
    Follows p p' 0 1 SameStmt (ifRest p fuel arms otherwise) (ifRest p' fuel' arms' otherwise') i i'
  | 0, fuel', arms, arms', otherwise, otherwise', harms, helse, i, i' => follows_throw _ _
  | fuel + 1, fuel', arms, arms', otherwise, otherwise', harms, helse, i, i' => by
    refine Follows.fuel (fun n => ifRest p' n arms' otherwise') rfl (fun n => ?_) fuel'
    rw [ifRest, ifRest]
    refine Follows.peek (by omega) fun t _ => ?_
    split
    · refine Follows.advance 1 (by omega) ?_
      refine (follows_condition p p' fuel n _ _).bind 1 (by omega) (by omega) (fun _ => rfl) ?_
      rintro ⟨c, span⟩ ⟨_, span'⟩ j j' rfl
      dsimp only
      refine (follows_block fuel n j j').bind 1 (by omega) (by omega) (fun _ => rfl) ?_
      intro body body' k k' hbody
      refine follows_ifRest fuel n _ _ _ _ ?_ helse k k'
      rw [bareArms_append, bareArms_append, harms, bareArms, bareArms, hbody]
      rfl
    · refine Follows.advance 1 (by omega) ?_
      refine follows_eat.bind 1 (by omega) (by omega) (fun _ => rfl) fun _ _ j j' _ => ?_
      refine (follows_block fuel n j j').bind 1 (by omega) (by omega) (fun _ => rfl) ?_
      intro body body' k k' hbody
      refine follows_ifRest fuel n _ _ _ _ harms ?_ k k'
      rw [bareElse, bareElse, hbody]
    · refine Follows.advance 0 (by omega) (follows_pure ?_)
      show Stmt.bare _ = Stmt.bare _
      rw [Stmt.bare, Stmt.bare, harms, helse]
    · exact follows_fail _ _

theorem follows_block : ∀ fuel fuel' i i',
    Follows p p' 1 0 SameBody (block p fuel) (block p' fuel') i i'
  | 0, fuel', i, i' => follows_throw _ _
  | fuel + 1, fuel', i, i' => by
    refine Follows.fuel (fun n => block p' n) rfl (fun n => ?_) fuel'
    rw [block, block]
    refine follows_skipNewlines.bind 0 (by omega) (by omega) (fun _ => rfl) fun _ _ j j' _ => ?_
    refine Follows.sees (by omega) fun b₁ _ => ?_
    refine Follows.sees (by omega) fun b₂ _ => ?_
    refine Follows.sees (by omega) fun b₃ _ => ?_
    split
    · exact follows_pure rfl
    · refine Follows.mono (e := 1) (d := 1) (R := SameBody) ?_ (by omega) (by omega) fun _ _ h => h
      refine Follows.atEnd (by omega) (by nofun) ?_
      refine (follows_stmt fuel n j j').bind 0 (by omega) (by omega) (fun _ => rfl) ?_
      intro s s' k k' hs
      refine (follows_block fuel n k k').bind 0 (by omega) (by omega) (fun _ => rfl) ?_
      intro ss ss' l l' hss
      refine follows_pure ?_
      show bareBody _ = bareBody _
      rw [bareBody, bareBody, hs, hss]

end

end

end Vejas.Vjs
