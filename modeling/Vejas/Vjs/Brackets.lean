import Vejas.Vjs.Locality

/-! What the parser takes for a literal or an expression closes every bracket it opens, has no
assignment in it, and no name between two colons. -/

namespace Vejas.Vjs
open Json Rust

def Tok.turn : Tok → Int
  | .sym .lBrace => 1
  | .sym .lBrack => 1
  | .sym .lParen => 1
  | .sym .rBrace => -1
  | .sym .rBrack => -1
  | .sym .rParen => -1
  | _ => 0

namespace Input

def level (p : Input) (i : Nat) : Nat → Int
  | 0 => 0
  | n + 1 => (p.tokAt i).turn + level p (i + 1) n

/-- A name between two colons. -/
def Wedged (p : Input) (k : Nat) : Prop :=
  p.tokAt k = .sym .colon ∧ (∃ x, p.tokAt (k + 1) = .ident x) ∧ p.tokAt (k + 2) = .sym .colon

def Sound (p : Input) (k : Nat) : Prop := p.tokAt k ≠ .sym .eq ∧ ¬ p.Wedged k

end Input

theorem level_add (p : Input) (i m n : Nat) : p.level i (m + n) = p.level i m + p.level (i + m) n := by
  induction m generalizing i with
  | zero => simp [Input.level]
  | succ m ih =>
    rw [show m + 1 + n = (m + n) + 1 by omega, Input.level, Input.level, ih,
      show i + 1 + m = i + (m + 1) by omega]
    omega

theorem sound_of_ne {p : Input} {k : Nat} (h : p.tokAt k ≠ .sym .eq) (h' : p.tokAt k ≠ .sym .colon) :
    p.Sound k := ⟨h, fun hw => h' hw.1⟩

section
variable {α β : Type} (p : Input)

/-- Where `m` succeeds it changes the level by `z`, keeps it from falling below `-b` before its
end, and takes sound tokens only. -/
def Shaped (b z : Int) (m : Parse α) (i : Nat) : Prop :=
  ∀ a j, m i = .ok (a, j) → i ≤ j ∧ p.level i (j - i) = z ∧
    ∀ n, n < j - i → 0 ≤ b + p.level i n ∧ p.Sound (i + n)

variable {p} {b z : Int} {i : Nat}

theorem Shaped.bind {m : Parse α} {f : α → Parse β} (y : Int) (hm : Shaped p b y m i)
    (hf : ∀ a j, m i = .ok (a, j) → Shaped p (b + y) (z - y) (f a) j) : Shaped p b z (m >>= f) i := by
  intro c k hrun
  obtain ⟨a, j, hmi, hfj⟩ := of_parse_bind hrun
  obtain ⟨hij, hy, hm⟩ := hm a j hmi
  obtain ⟨hjk, hz, hf⟩ := hf a j hmi c k hfj
  have hsplit : k - i = (j - i) + (k - j) := by omega
  have hj : i + (j - i) = j := by omega
  refine ⟨by omega, ?_, ?_⟩
  · rw [hsplit, level_add, hj, hy, hz]
    omega
  · intro n hn
    by_cases hlt : n < j - i
    · exact hm n hlt
    · have hrest := hf (n - (j - i)) (by omega)
      rw [show n = (j - i) + (n - (j - i)) by omega, level_add, hj, hy, ← Nat.add_assoc, hj]
      exact ⟨by omega, hrest.2⟩

theorem Shaped.mono {m : Parse α} {c : Int} (h : Shaped p b z m i) (hbc : b ≤ c) : Shaped p c z m i := by
  intro a j hrun
  obtain ⟨hij, hz, hall⟩ := h a j hrun
  refine ⟨hij, hz, fun n hn => ?_⟩
  obtain ⟨hlevel, hsound⟩ := hall n hn
  exact ⟨by omega, hsound⟩

theorem shaped_pure (a : α) : Shaped p b 0 (pure a) i := by
  intro c j hrun
  cases hrun
  rw [Nat.sub_self]
  exact ⟨Nat.le_refl _, rfl, nofun⟩

theorem shaped_fail (msg : String) : Shaped p b z (p.fail msg : Parse α) i := by
  intro c j hrun
  cases hrun

theorem shaped_throw (f : Fault) : Shaped p b z (throw f : Parse α) i := by
  intro c j hrun
  cases hrun

theorem sound_of_tok {t : Tok} (h : p.tokAt i = t) (heq : t.is .eq = false) (hcolon : t.is .colon = false) :
    p.Sound i := by
  refine sound_of_ne ?_ ?_
  · intro he
    rw [← h, he] at heq
    cases heq
  · intro he
    rw [← h, he] at hcolon
    cases hcolon

theorem Shaped.step {m : Parse α} (hb : 0 ≤ b)
    (h : Shaped p (b + (p.tokAt i).turn) (z - (p.tokAt i).turn) m (i + 1))
    (hs : ∀ r, m (i + 1) = .ok r → p.Sound i) {a : α} {j : Nat} (hrun : m (i + 1) = .ok (a, j)) :
    i ≤ j ∧ p.level i (j - i) = z ∧ ∀ n, n < j - i → 0 ≤ b + p.level i n ∧ p.Sound (i + n) := by
  obtain ⟨hij, hz, hall⟩ := h a j hrun
  have hlen : j - i = (j - (i + 1)) + 1 := by omega
  refine ⟨by omega, ?_, ?_⟩
  · rw [hlen, Input.level, hz]
    omega
  · intro n hn
    cases n with
    | zero => exact ⟨by simpa [Input.level] using hb, hs _ hrun⟩
    | succ n =>
      obtain ⟨hlevel, hsound⟩ := hall n (by omega)
      rw [Input.level, show i + (n + 1) = i + 1 + n by omega]
      exact ⟨by omega, hsound⟩

theorem Shaped.next {f : Tok → Parse β} (hb : 0 ≤ b)
    (h : ∀ t, p.tokAt i = t → Shaped p (b + t.turn) (z - t.turn) (f t) (i + 1))
    (hs : ∀ t r, p.tokAt i = t → f t (i + 1) = .ok r → p.Sound i) : Shaped p b z (p.next >>= f) i := by
  intro c j hrun
  have hrun : f (p.tokAt i) (i + 1) = .ok (c, j) := hrun
  exact Shaped.step hb (h _ rfl) (fun r => hs _ r rfl) hrun

theorem Shaped.advance {f : Unit → Parse β} (hb : 0 ≤ b)
    (h : Shaped p (b + (p.tokAt i).turn) (z - (p.tokAt i).turn) (f ()) (i + 1))
    (hs : ∀ r, f () (i + 1) = .ok r → p.Sound i) : Shaped p b z (Input.advance >>= f) i := by
  intro c j hrun
  have hrun : f () (i + 1) = .ok (c, j) := hrun
  exact Shaped.step hb h hs hrun

theorem Shaped.peek {f : Tok → Parse β} (h : ∀ t, p.tokAt i = t → Shaped p b z (f t) i) :
    Shaped p b z (p.peek >>= f) i := h _ rfl

theorem Shaped.pos {f : Nat → Parse β} (h : ∀ n, Shaped p b z (f n) i) :
    Shaped p b z (p.pos >>= f) i := h _

theorem Shaped.accept {s : Sym} {f : Bool → Parse β} (hb : 0 ≤ b) (hs : s ≠ .eq ∧ s ≠ .colon)
    (htrue : p.tokAt i = .sym s →
      Shaped p (b + (Tok.sym s).turn) (z - (Tok.sym s).turn) (f true) (i + 1))
    (hfalse : (p.tokAt i).is s = false → Shaped p b z (f false) i) :
    Shaped p b z (p.accept s >>= f) i := by
  cases his : (p.tokAt i).is s with
  | true =>
    have htok := Tok.eq_of_is his
    intro c j hrun
    rw [bind_run (accept_true his)] at hrun
    refine Shaped.step hb ?_ ?_ hrun
    · rw [htok]
      exact htrue htok
    · intro r _
      refine sound_of_tok htok ?_ ?_
      · exact beq_eq_false_iff_ne.mpr hs.1
      · exact beq_eq_false_iff_ne.mpr hs.2
  | false =>
    intro c j hrun
    rw [bind_run (accept_false his)] at hrun
    exact hfalse his c j hrun

theorem level_zero {n : Nat} (h : ∀ x, x < n → (p.tokAt (i + x)).turn = 0) : p.level i n = 0 := by
  induction n generalizing i with
  | zero => rfl
  | succ n ih =>
    have hfirst := h 0 (by omega)
    rw [Nat.add_zero] at hfirst
    rw [Input.level, hfirst, ih]
    · rfl
    · intro x hx
      have := h (x + 1) (by omega)
      rwa [show i + (x + 1) = i + 1 + x by omega] at this

theorem shaped_skipNewlines (hb : 0 ≤ b) : Shaped p b 0 p.skipNewlines i := by
  intro a j hrun
  obtain ⟨hij, hnew, -⟩ := skipNewlines_iff.mp hrun
  have htok : ∀ x, x < j - i → p.tokAt (i + x) = .sym .newline := by
    intro x hx
    obtain ⟨t, ht, his⟩ := hnew x hx
    unfold Input.tokAt
    rw [ht]
    exact Tok.eq_of_is his
  have hturn : ∀ x, x < j - i → (p.tokAt (i + x)).turn = 0 := by
    intro x hx
    rw [htok x hx]
    rfl
  refine ⟨hij, level_zero hturn, ?_⟩
  intro n hn
  refine ⟨?_, sound_of_tok (htok n hn) rfl rfl⟩
  rw [level_zero fun x hx => hturn x (by omega)]
  omega

theorem shaped_itemEnd (hb : 0 ≤ b) : Shaped p b 0 p.itemEnd i := by
  unfold Input.itemEnd
  refine (shaped_skipNewlines hb).bind 0 fun _ j _ => ?_
  refine Shaped.accept (by omega) (by decide) (fun _ => ?_) fun _ => ?_
  · exact shaped_skipNewlines (by simpa [Tok.turn] using hb)
  · exact shaped_pure ()

variable [External]

theorem Shaped.eat {s : Sym} {what : String} {f : Unit → Parse β} (hb : 0 ≤ b)
    (h : p.tokAt i = .sym s →
      Shaped p (b + (Tok.sym s).turn) (z - (Tok.sym s).turn) (f ()) (i + 1))
    (hs : ∀ r, p.tokAt i = .sym s → f () (i + 1) = .ok r → p.Sound i) :
    Shaped p b z (p.eat s what >>= f) i := by
  intro c j hrun
  obtain ⟨u, k, heat, hrest⟩ := of_parse_bind hrun
  obtain ⟨htok, rfl⟩ := eat_ok heat
  refine Shaped.step hb ?_ (fun r => hs r htok) hrest
  rw [htok]
  exact h htok

omit [External] in
theorem keyword_flat {s : Sym} {k : String × Sym} (h : keywords.find? (fun k => k.2 == s) = some k) :
    (Tok.sym s).turn = 0 ∧ s ≠ .eq ∧ s ≠ .colon := by
  have hall : ∀ k ∈ keywords, (Tok.sym k.2).turn = 0 ∧ k.2 ≠ .eq ∧ k.2 ≠ .colon := by decide
  have hk := List.find?_some h
  rw [← beq_iff_eq.mp hk]
  exact hall k (List.mem_of_find?_eq_some h)

theorem shaped_word {what : String} (hb : 0 ≤ b) : Shaped p b 0 (p.word what) i := by
  unfold Input.word
  refine Shaped.peek fun t ht => ?_
  dsimp only
  split
  next w hw =>
    have hflat : t.turn = 0 ∧ t.is .eq = false ∧ t.is .colon = false := by
      cases t with
      | ident s => exact ⟨rfl, rfl, rfl⟩
      | str s => exact ⟨rfl, rfl, rfl⟩
      | sym s =>
        obtain ⟨k, hk, -⟩ := Option.map_eq_some_iff.mp hw
        obtain ⟨hturn, heq, hcolon⟩ := keyword_flat hk
        exact ⟨hturn, beq_eq_false_iff_ne.mpr heq, beq_eq_false_iff_ne.mpr hcolon⟩
      | _ => cases hw
    obtain ⟨hturn, heq, hcolon⟩ := hflat
    refine Shaped.advance hb ?_ fun r _ => sound_of_tok ht heq hcolon
    rw [ht, hturn]
    exact shaped_pure w
  next => exact shaped_fail _

end

section
variable [External] {p : Input}

theorem literalValue_ident {fuel i : Nat} {x : String} (h : p.tokAt i = .ident x) :
    ∀ r, literalValue p fuel i ≠ .ok r := by
  intro r hrun
  cases fuel with
  | zero => cases hrun
  | succ fuel =>
    unfold literalValue at hrun
    rw [bind_run (next_run h)] at hrun
    cases hrun

mutual

theorem shaped_literalValue : ∀ fuel i (b : Int), 0 ≤ b → Shaped p b 0 (literalValue p fuel) i
  | 0, i, b, hb => shaped_throw _
  | fuel + 1, i, b, hb => by
    unfold literalValue
    refine Shaped.next hb (fun t ht => ?_) fun t r ht hrun => ?_
    · split
      · exact Shaped.pos fun _ => shaped_pure _
      · exact Shaped.pos fun _ => shaped_pure _
      · exact Shaped.pos fun _ => shaped_pure _
      · exact Shaped.pos fun _ => shaped_pure _
      · exact Shaped.pos fun _ => shaped_pure _
      · refine Shaped.next (by simpa [Tok.turn] using hb) (fun u _ => ?_) fun u r hu hrun => ?_
        · split
          · exact Shaped.pos fun _ => shaped_pure _
          · exact shaped_fail _
        · split at hrun
          · exact sound_of_tok hu rfl rfl
          · cases hrun
      · refine (shaped_skipNewlines (by simp [Tok.turn]; omega)).bind 0 fun _ j _ => ?_
        refine (shaped_literalItems fuel j _ (by simp [Tok.turn]; omega)).bind (-1) fun vs k _ => ?_
        exact Shaped.pos fun _ => shaped_pure _
      · refine (shaped_skipNewlines (by simp [Tok.turn]; omega)).bind 0 fun _ j _ => ?_
        refine (shaped_literalFields fuel [] [] j _ (by simp [Tok.turn]; omega)).bind (-1) fun r k _ => ?_
        exact Shaped.pos fun _ => shaped_pure _
      · exact shaped_fail _
    · split at hrun
      all_goals first
        | exact sound_of_tok ht rfl rfl
        | cases hrun

theorem shaped_literalItems : ∀ fuel i (b : Int), 1 ≤ b → Shaped p b (-1) (literalItems p fuel) i
  | 0, i, b, hb => shaped_throw _
  | fuel + 1, i, b, hb => by
    unfold literalItems
    refine Shaped.accept (by omega) (by decide) (fun _ => shaped_pure _) fun _ => ?_
    refine (shaped_literalValue fuel i b (by omega)).bind 0 fun l j _ => ?_
    refine (shaped_itemEnd (by omega)).bind 0 fun _ k _ => ?_
    refine (shaped_literalItems fuel k _ (by omega)).bind (-1) fun vs _ _ => ?_
    exact shaped_pure _

theorem shaped_literalFields : ∀ fuel map spans i (b : Int), 1 ≤ b →
    Shaped p b (-1) (literalFields p fuel map spans) i
  | 0, map, spans, i, b, hb => shaped_throw _
  | fuel + 1, map, spans, i, b, hb => by
    rw [literalFields]
    refine Shaped.accept (by omega) (by decide) (fun _ => shaped_pure _) fun _ => ?_
    refine (shaped_word (by omega)).bind 0 fun key j _ => ?_
    refine Shaped.eat (by omega) (fun _ => ?_) fun r hcolon hrun => ?_
    · refine Shaped.pos fun vstart => ?_
      refine (shaped_literalValue fuel (j + 1) _ (by simp [Tok.turn]; omega)).bind 0 fun l k _ => ?_
      refine Shaped.pos fun vend => ?_
      refine (shaped_itemEnd (by simp [Tok.turn]; omega)).bind 0 fun _ k _ => ?_
      exact shaped_literalFields fuel _ _ k _ (by simp [Tok.turn]; omega)
    · obtain ⟨vstart, k, hpos, hrun⟩ := of_parse_bind hrun
      cases hpos
      obtain ⟨l, k, hlit, -⟩ := of_parse_bind hrun
      refine ⟨by rw [hcolon]; nofun, ?_⟩
      rintro ⟨-, ⟨x, hx⟩, -⟩
      exact literalValue_ident hx _ hlit

end

end

end Vejas.Vjs
