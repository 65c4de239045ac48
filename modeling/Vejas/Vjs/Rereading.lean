import Vejas.Rust.Exact
import Vejas.Vjs.Editing
import Vejas.Vjs.Spelling

/-! A value written as JSON and read as a literal of the flow language. Everything comes back but
the control characters whose escapes the lexer does not know. -/

namespace Vejas.Vjs
open Json Rust

mutual

def rereadValue : Value → Value
  | .null => .null
  | .bool b => .bool b
  | .number n => .number n
  | .string s => .string (rereadStr s)
  | .array vs => .array (rereadItems vs)
  | .object fs => .object (Map.ofEntries (rereadFields fs))

def rereadItems : List Value → List Value
  | [] => []
  | v :: vs => rereadValue v :: rereadItems vs

def rereadFields : List (String × Value) → List (String × Value)
  | [] => []
  | (k, v) :: fs => (rereadStr k, rereadValue v) :: rereadFields fs

end

namespace Input

def after (p : Input) (i : Nat) : List Tok := (p.toks.drop i).map (·.1)

end Input

section
variable {α β : Type} {p : Input} {i j : Nat}

theorem bind_run {m : Parse α} {f : α → Parse β} {a : α} (h : m i = .ok (a, j)) :
    (m >>= f) i = f a j := by
  show StateT.bind m f i = _
  unfold StateT.bind
  rw [h]
  rfl

theorem after_cons {t : Tok} {ts : List Tok} (h : p.after i = t :: ts) :
    p.tokAt i = t ∧ p.after (i + 1) = ts := by
  unfold Input.after at h ⊢
  unfold Input.tokAt Input.tokAt?
  cases hd : p.toks.drop i with
  | nil =>
    rw [hd] at h
    cases h
  | cons s ss =>
    rw [hd] at h
    have hget : p.toks[i]? = some s := by
      rw [← List.head?_drop, hd]
      rfl
    have htail : p.toks.drop (i + 1) = ss := by
      rw [← List.drop_drop, hd]
      rfl
    rw [hget, htail]
    cases h
    exact ⟨rfl, rfl⟩

theorem after_append {ts us : List Tok} (h : p.after i = ts ++ us) : p.after (i + ts.length) = us := by
  unfold Input.after at h ⊢
  rw [← List.drop_drop, List.map_drop, h, List.drop_left]

/-- The tokens are those from `i` up to `j`. -/
inductive Stand (p : Input) : Nat → List Tok → Nat → Prop
  | nil (i : Nat) : Stand p i [] i
  | cons {i j : Nat} {t : Tok} {ts : List Tok} (h : p.tokAt? i = some t) (tail : Stand p (i + 1) ts j) :
      Stand p i (t :: ts) j

theorem Stand.uncons {t : Tok} {ts : List Tok} (h : Stand p i (t :: ts) j) : p.tokAt i = t ∧ Stand p (i + 1) ts j := by
  cases h with
  | cons h tail =>
    refine ⟨?_, tail⟩
    unfold Input.tokAt
    rw [h]
    rfl

theorem Stand.split {ts us : List Tok} (h : Stand p i (ts ++ us) j) : ∃ k, Stand p i ts k ∧ Stand p k us j := by
  induction ts generalizing i with
  | nil => exact ⟨i, .nil i, h⟩
  | cons t ts ih =>
    cases h with
    | cons h tail =>
      obtain ⟨k, hts, hus⟩ := ih tail
      exact ⟨k, .cons h hts, hus⟩

theorem Stand.append {ts us : List Tok} {k : Nat} (h : Stand p i ts k) (h' : Stand p k us j) : Stand p i (ts ++ us) j := by
  induction h with
  | nil i => exact h'
  | cons h tail ih => exact .cons h (ih h')

theorem stand_of_after {ts rest : List Tok} (h : p.after i = ts ++ rest) : Stand p i ts (i + ts.length) := by
  induction ts generalizing i with
  | nil => exact .nil i
  | cons t ts ih =>
    have htok : p.tokAt? i = some t := by
      have hhead := congrArg List.head? h
      unfold Input.after at hhead
      rw [List.head?_map, List.head?_drop] at hhead
      exact hhead
    have htail := ih (after_cons h).2
    rw [Nat.add_right_comm] at htail
    exact .cons htok htail

theorem next_run {t : Tok} (h : p.tokAt i = t) : p.next i = .ok (t, i + 1) := by
  rw [← h]
  rfl

theorem peek_run {t : Tok} (h : p.tokAt i = t) : p.peek i = .ok (t, i) := by
  rw [← h]
  rfl

theorem pos_run : p.pos i = .ok (p.posAt i, i) := rfl

theorem accept_true {s : Sym} (h : (p.tokAt i).is s = true) : p.accept s i = .ok (true, i + 1) :=
  if_pos h

theorem accept_false {s : Sym} (h : (p.tokAt i).is s = false) : p.accept s i = .ok (false, i) :=
  if_neg (by simp [h])

theorem skipNewlines_run (h : (p.tokAt i).is .newline = false) : p.skipNewlines i = .ok ((), i) := by
  unfold Input.skipNewlines
  unfold Input.tokAt Input.tokAt? at h
  cases hd : p.toks.drop i with
  | nil => rfl
  | cons s ss =>
    have hget : p.toks[i]? = some s := by
      rw [← List.head?_drop, hd]
      rfl
    rw [hget] at h
    have hs : s.1.is .newline = false := h
    simp [hs]

theorem itemEnd_comma (h : p.tokAt i = .sym .comma) (h' : (p.tokAt (i + 1)).is .newline = false) :
    p.itemEnd i = .ok ((), i + 1) := by
  unfold Input.itemEnd
  rw [bind_run (skipNewlines_run (by rw [h]; rfl)), bind_run (accept_true (by rw [h]; rfl))]
  exact skipNewlines_run h'

theorem itemEnd_none (h : (p.tokAt i).is .newline = false) (h' : (p.tokAt i).is .comma = false) :
    p.itemEnd i = .ok ((), i) := by
  unfold Input.itemEnd
  rw [bind_run (skipNewlines_run h), bind_run (accept_false h')]
  rfl

variable [External]

theorem word_str {s what : String} (h : p.tokAt i = .str s) : p.word what i = .ok (s, i + 1) := by
  unfold Input.word
  rw [bind_run (peek_run h)]
  rfl

theorem eat_run {s : Sym} {what : String} (h : p.tokAt i = .sym s) :
    p.eat s what i = .ok ((), i + 1) := by
  unfold Input.eat
  rw [bind_run (peek_run h), if_pos (by simp [Tok.is])]
  rfl

def Tok.opens (t : Tok) : Bool := !(t.is .newline || t.is .rBrack || t.is .rBrace || t.is .comma)

omit [External] in
theorem Tok.opens_iff {t : Tok} : t.opens = true ↔
    t.is .newline = false ∧ t.is .rBrack = false ∧ t.is .rBrace = false ∧ t.is .comma = false := by
  unfold Tok.opens
  simp only [Bool.not_eq_true', Bool.or_eq_false_iff, and_assoc]

structure Reads (toks : List Tok) (v : Value) : Prop where
  opens : ∃ t ts, toks = t :: ts ∧ t.opens = true
  run : ∀ {p : Input} {i fuel : Nat} {rest : List Tok}, p.after i = toks ++ rest → toks.length ≤ fuel →
    ∃ spans stop, literalValue p fuel i = .ok ((v, spans, stop), i + toks.length)

theorem Reads.head {toks : List Tok} {v : Value} {rest : List Tok} (h : Reads toks v)
    (hp : p.after i = toks ++ rest) : (p.tokAt i).opens = true := by
  obtain ⟨t, ts, rfl, ht⟩ := h.opens
  rw [(after_cons hp).1]
  exact ht

theorem reads_token {t : Tok} {v : Value} (ht : t.opens = true)
    (h : ∀ {p : Input} {i fuel : Nat}, p.tokAt i = t →
      literalValue p (fuel + 1) i = .ok ((v, [], p.posAt (i + 1)), i + 1)) : Reads [t] v where
  opens := ⟨t, [], rfl, ht⟩
  run {p i fuel rest} hp hfuel := by
    obtain ⟨fuel, rfl⟩ : ∃ n, fuel = n + 1 := ⟨fuel - 1, by
      rw [List.length_singleton] at hfuel
      omega⟩
    exact ⟨_, _, h (after_cons hp).1⟩

theorem reads_null : Reads [.sym .null] .null :=
  reads_token rfl fun h => by
    unfold literalValue
    rw [bind_run (next_run h)]
    rfl

theorem reads_bool (b : Bool) : Reads [.sym (if b then .true else .false)] (.bool b) := by
  cases b with
  | true =>
    refine reads_token rfl fun h => ?_
    unfold literalValue
    rw [bind_run (next_run h)]
    rfl
  | false =>
    refine reads_token rfl fun h => ?_
    unfold literalValue
    rw [bind_run (next_run h)]
    rfl

theorem reads_str (s : String) : Reads [.str s] (.string s) :=
  reads_token rfl fun h => by
    unfold literalValue
    rw [bind_run (next_run h)]
    rfl

theorem reads_num (x : Float) : Reads [.num x] (num x) :=
  reads_token rfl fun h => by
    unfold literalValue
    rw [bind_run (next_run h)]
    rfl

theorem reads_minus (x : Float) : Reads [.sym .minus, .num x] (num (-x)) where
  opens := ⟨_, _, rfl, rfl⟩
  run {p i fuel rest} hp hfuel := by
    obtain ⟨fuel, rfl⟩ : ∃ n, fuel = n + 1 := ⟨fuel - 1, by
      simp only [List.length_cons] at hfuel
      omega⟩
    obtain ⟨hminus, hp⟩ := after_cons hp
    obtain ⟨hnum, -⟩ := after_cons hp
    refine ⟨[], p.posAt (i + 2), ?_⟩
    unfold literalValue
    rw [bind_run (next_run hminus)]
    dsimp only
    rw [bind_run (next_run hnum)]
    rfl

omit [External] in
theorem commas_cons (ts : List Tok) (tss : List (List Tok)) : ∃ us, commas (ts :: tss) = ts ++ us := by
  cases tss with
  | nil => exact ⟨[], (List.append_nil ts).symm⟩
  | cons us tss => exact ⟨_, rfl⟩

theorem literalItems_step {toks rest : List Tok} {v : Value} {vs : List Value} {fuel k : Nat}
    (h : Reads toks v) (hp : p.after i = toks ++ rest) (hfuel : toks.length ≤ fuel)
    (hend : p.itemEnd (i + toks.length) = .ok ((), j)) (hrest : literalItems p fuel j = .ok (vs, k)) :
    literalItems p (fuel + 1) i = .ok (v :: vs, k) := by
  obtain ⟨-, hbrack, -, -⟩ := Tok.opens_iff.mp (h.head hp)
  obtain ⟨spans, stop, hv⟩ := h.run hp hfuel
  unfold literalItems
  rw [bind_run (accept_false hbrack)]
  show (literalValue p fuel >>= _) i = _
  rw [bind_run hv]
  show (p.itemEnd >>= _) _ = _
  rw [bind_run hend, bind_run hrest]
  rfl

theorem literalFields_step {toks rest : List Tok} {key : String} {v : Value} {fuel : Nat} (map : Map)
    (spans : List (String × Span)) (h : Reads toks v)
    (hp : p.after i = .str key :: .sym .colon :: (toks ++ rest)) (hfuel : toks.length ≤ fuel)
    (hend : p.itemEnd (i + 2 + toks.length) = .ok ((), j)) :
    ∃ spans', literalFields p (fuel + 1) map spans i = literalFields p fuel (map.insert key v) spans' j := by
  obtain ⟨hkey, hp⟩ := after_cons hp
  obtain ⟨hcolon, hp⟩ := after_cons hp
  obtain ⟨entries, stop, hv⟩ := h.run hp hfuel
  refine ⟨spans ++ [(key, (p.posAt (i + 2), p.posAt (i + 2 + toks.length)))], ?_⟩
  rw [literalFields]
  rw [bind_run (accept_false (by rw [hkey]; rfl))]
  show (p.word "key" >>= _) i = _
  rw [bind_run (word_str hkey), bind_run (eat_run hcolon), bind_run pos_run, bind_run hv]
  show (p.pos >>= _) (i + 2 + toks.length) = _
  rw [bind_run pos_run, bind_run hend]

theorem literalItems_reads (vs : List Value) (h : ∀ v ∈ vs, Reads (litToks v) (rereadValue v)) :
    ∀ {p : Input} {i : Nat} (fuel : Nat) {rest : List Tok},
      p.after i = commas (itemToks vs) ++ .sym .rBrack :: rest →
      (commas (itemToks vs)).length + 1 ≤ fuel →
      literalItems p fuel i = .ok (rereadItems vs, i + (commas (itemToks vs)).length + 1) := by
  induction vs with
  | nil =>
    intro p i fuel rest hp hfuel
    obtain ⟨fuel, rfl⟩ : ∃ n, fuel = n + 1 := ⟨fuel - 1, by omega⟩
    unfold literalItems
    rw [bind_run (accept_true (by rw [(after_cons hp).1]; rfl))]
    rfl
  | cons v vs ih =>
    intro p i fuel rest hp hfuel
    obtain ⟨fuel, rfl⟩ : ∃ n, fuel = n + 1 := ⟨fuel - 1, by omega⟩
    have hv := h v (List.mem_cons_self ..)
    have htail : ∀ u ∈ vs, Reads (litToks u) (rereadValue u) := fun u hu => h u (List.mem_cons_of_mem _ hu)
    cases vs with
    | nil =>
      simp only [itemToks, commas] at hp hfuel ⊢
      obtain ⟨t, ts, hlit, -⟩ := hv.opens
      have hlen := congrArg List.length hlit
      rw [List.length_cons] at hlen
      have hclose := after_append hp
      have htok := (after_cons hclose).1
      refine literalItems_step hv hp (by omega)
        (itemEnd_none (by rw [htok]; rfl) (by rw [htok]; rfl)) ?_
      exact ih htail _ hclose (by simp only [itemToks, commas, List.length_nil]; omega)
    | cons w vs =>
      have hw := h w (List.mem_cons_of_mem _ (List.mem_cons_self ..))
      simp only [itemToks, commas, List.append_assoc, List.cons_append, List.length_append,
        List.length_cons] at hp hfuel ⊢
      have hcomma := after_append hp
      obtain ⟨htok, hnext⟩ := after_cons hcomma
      have hopen : (p.tokAt (i + (litToks v).length + 1)).is .newline = false := by
        obtain ⟨us, hus⟩ := commas_cons (litToks w) (itemToks vs)
        rw [hus, List.append_assoc] at hnext
        exact (Tok.opens_iff.mp (hw.head hnext)).1
      refine literalItems_step hv hp (by omega) (itemEnd_comma htok hopen) ?_
      have hrest := ih htail fuel hnext (by simp only [itemToks]; omega)
      rw [hrest]
      simp only [rereadItems, itemToks]
      congr 2
      omega

theorem literalFields_reads (fs : List (String × Value)) (h : ∀ f ∈ fs, Reads (litToks f.2) (rereadValue f.2)) :
    ∀ {p : Input} {i : Nat} (fuel : Nat) {rest : List Tok} (map : Map) (spans : List (String × Span)),
      p.after i = commas (fieldToks fs) ++ .sym .rBrace :: rest →
      (commas (fieldToks fs)).length + 1 ≤ fuel →
      ∃ spans', literalFields p fuel map spans i =
        .ok ((Map.extend (rereadFields fs) map, spans'), i + (commas (fieldToks fs)).length + 1) := by
  induction fs with
  | nil =>
    intro p i fuel rest map spans hp hfuel
    obtain ⟨fuel, rfl⟩ : ∃ n, fuel = n + 1 := ⟨fuel - 1, by omega⟩
    refine ⟨spans, ?_⟩
    rw [literalFields]
    rw [bind_run (accept_true (by rw [(after_cons hp).1]; rfl))]
    rfl
  | cons f fs ih =>
    obtain ⟨k, v⟩ := f
    intro p i fuel rest map spans hp hfuel
    obtain ⟨fuel, rfl⟩ : ∃ n, fuel = n + 1 := ⟨fuel - 1, by omega⟩
    have hv : Reads (litToks v) (rereadValue v) := h (k, v) (List.mem_cons_self ..)
    have htail : ∀ f ∈ fs, Reads (litToks f.2) (rereadValue f.2) := fun f hf => h f (List.mem_cons_of_mem _ hf)
    cases fs with
    | nil =>
      have hlen : (litToks v).length ≤ fuel := by
        simp only [fieldToks, commas, List.length_cons] at hfuel
        omega
      simp only [fieldToks, commas, List.cons_append, List.length_cons] at hp hfuel ⊢
      have hclose := after_append (after_cons (after_cons hp).2).2
      have htok := (after_cons hclose).1
      obtain ⟨spans₁, hstep⟩ := literalFields_step map spans hv hp hlen
        (itemEnd_none (by rw [htok]; rfl) (by rw [htok]; rfl))
      obtain ⟨spans₂, hrest⟩ := ih htail fuel (Map.insert (rereadStr k) (rereadValue v) map) spans₁ hclose
        (by simp only [fieldToks, commas, List.length_nil]; omega)
      refine ⟨spans₂, ?_⟩
      rw [hstep, hrest]
      simp only [rereadFields, fieldToks, commas, List.length_nil]
      congr 2
      omega
    | cons g fs =>
      obtain ⟨k', w⟩ := g
      have hlen : (litToks v).length ≤ fuel := by
        simp only [fieldToks, commas, List.length_cons, List.length_append] at hfuel
        omega
      simp only [fieldToks, commas, List.cons_append, List.append_assoc, List.length_cons,
        List.length_append] at hp hfuel ⊢
      have hcomma := after_append (after_cons (after_cons hp).2).2
      obtain ⟨htok, hnext⟩ := after_cons hcomma
      have hopen : (p.tokAt (i + 1 + 1 + (litToks v).length + 1)).is .newline = false := by
        obtain ⟨us, hus⟩ := commas_cons (.str (rereadStr k') :: .sym .colon :: litToks w) (fieldToks fs)
        rw [hus] at hnext
        rw [(after_cons hnext).1]
        rfl
      obtain ⟨spans₁, hstep⟩ := literalFields_step map spans hv hp hlen
        (itemEnd_comma htok hopen)
      obtain ⟨spans₂, hrest⟩ := ih htail fuel (Map.insert (rereadStr k) (rereadValue v) map) spans₁ hnext
        (by simp only [fieldToks]; omega)
      refine ⟨spans₂, ?_⟩
      rw [hstep, hrest]
      simp only [rereadFields, fieldToks]
      congr 2
      omega

theorem reads_array {vs : List Value} (h : ∀ v ∈ vs, Reads (litToks v) (rereadValue v)) :
    Reads (litToks (.array vs)) (rereadValue (.array vs)) where
  opens := ⟨_, _, rfl, rfl⟩
  run {p i fuel rest} hp hfuel := by
    rw [litToks] at hp hfuel ⊢
    simp only [List.cons_append, List.append_assoc, List.nil_append, List.length_cons,
      List.length_append, List.length_nil] at hp hfuel ⊢
    obtain ⟨fuel, rfl⟩ : ∃ n, fuel = n + 1 := ⟨fuel - 1, by omega⟩
    obtain ⟨hopen, hp⟩ := after_cons hp
    have hskip : p.skipNewlines (i + 1) = .ok ((), i + 1) := by
      refine skipNewlines_run ?_
      cases vs with
      | nil =>
        rw [(after_cons hp).1]
        rfl
      | cons v vs =>
        obtain ⟨us, hus⟩ := commas_cons (litToks v) (itemToks vs)
        rw [itemToks, hus, List.append_assoc] at hp
        exact (Tok.opens_iff.mp ((h v (List.mem_cons_self ..)).head hp)).1
    have hitems := literalItems_reads vs h fuel hp (by omega)
    refine ⟨[], p.posAt (i + 1 + (commas (itemToks vs)).length + 1), ?_⟩
    rw [literalValue]
    rw [bind_run (next_run hopen)]
    dsimp only
    rw [bind_run hskip, bind_run hitems, bind_run pos_run]
    rw [show i + 1 + (commas (itemToks vs)).length + 1 = i + ((commas (itemToks vs)).length + (0 + 1) + 1) by
      omega]
    rfl

theorem reads_object {fs : List (String × Value)} (h : ∀ f ∈ fs, Reads (litToks f.2) (rereadValue f.2)) :
    Reads (litToks (.object fs)) (rereadValue (.object fs)) where
  opens := ⟨_, _, rfl, rfl⟩
  run {p i fuel rest} hp hfuel := by
    rw [litToks] at hp hfuel ⊢
    simp only [List.cons_append, List.append_assoc, List.nil_append, List.length_cons,
      List.length_append, List.length_nil] at hp hfuel ⊢
    obtain ⟨fuel, rfl⟩ : ∃ n, fuel = n + 1 := ⟨fuel - 1, by omega⟩
    obtain ⟨hopen, hp⟩ := after_cons hp
    have hskip : p.skipNewlines (i + 1) = .ok ((), i + 1) := by
      refine skipNewlines_run ?_
      cases fs with
      | nil =>
        rw [(after_cons hp).1]
        rfl
      | cons f fs =>
        obtain ⟨us, hus⟩ := commas_cons (.str (rereadStr f.1) :: .sym .colon :: litToks f.2) (fieldToks fs)
        rw [fieldToks, hus] at hp
        rw [(after_cons hp).1]
        rfl
    obtain ⟨spans, hfields⟩ := literalFields_reads fs h fuel [] [] hp (by omega)
    refine ⟨spans, p.posAt (i + 1 + (commas (fieldToks fs)).length + 1), ?_⟩
    rw [literalValue]
    rw [bind_run (next_run hopen)]
    dsimp only
    rw [bind_run hskip, bind_run hfields]
    show (p.pos >>= _) _ = _
    rw [bind_run pos_run]
    rw [show i + 1 + (commas (fieldToks fs)).length + 1 = i + ((commas (fieldToks fs)).length + (0 + 1) + 1) by
      omega]
    rfl

omit [External] in
theorem num_ofI64 {x : Float} {n : Int64} (hfract : F64.fractIsZero x = true) (hlt : x.abs < 9e15)
    (hn : F64.asI64 x = n) : num x = .number (.ofI64 n) := by
  unfold num
  rw [hfract, hn, decide_eq_true hlt]
  rfl

omit [External] in
theorem num_posInt (n : UInt64) (h : n.toNat < 9000000000000000) :
    num (F64.ofDecimal n.toNat 0) = .number (.posInt n) := by
  rcases Nat.eq_zero_or_pos n.toNat with hzero | hpos
  · have hn : n = 0 := UInt64.toNat_inj.mp hzero
    subst hn
    exact num_ofI64 (n := 0) (by decide +kernel) (by decide +kernel) (by decide +kernel)
  · have hx := F64.holds_ofDecimal hpos (by omega)
    have hint : Int64.toInt (Int64.ofInt n.toNat) = n.toNat := Int64.toInt_ofInt_of_le (by omega) (by omega)
    have hnonneg : ¬ Int64.ofInt n.toNat < 0 := by
      rw [Int64.lt_iff_toInt_lt, hint, Int64.toInt_zero]
      omega
    rw [num_ofI64 (hx.fractIsZero hpos (by omega)) ((F64.holds_abs hpos (by omega) hx).lt_nine hpos h)
      (hx.asI64 hpos (by omega))]
    show Value.number (Number.ofI64 (Int64.ofInt n.toNat)) = _
    rw [Number.ofI64, dif_neg hnonneg, Int64.ofInt_eq_ofNat, Int64.toUInt64_ofNat', UInt64.ofNat_toNat]

omit [External] in
theorem num_negInt (n : Int64) (hneg : n < 0) (h : -9000000000000000 < n.toInt) :
    num (-F64.ofDecimal (-n.toInt).toNat 0) = .number (.negInt n hneg) := by
  have hlt : n.toInt < 0 := Int64.lt_iff_toInt_lt.mp hneg
  have hpos : 0 < (-n.toInt).toNat := by omega
  have hx := F64.holds_neg hpos (by omega) (F64.holds_ofDecimal hpos (by omega))
  rw [num_ofI64 (hx.fractIsZero hpos (by omega))
    ((F64.holds_abs hpos (by omega) hx).lt_nine hpos (by omega)) (hx.asI64 hpos (by omega))]
  show Value.number (Number.ofI64 (Int64.ofInt (-((-n.toInt).toNat : Int)))) = _
  rw [show -((-n.toInt).toNat : Int) = n.toInt by omega, Int64.ofInt_toInt, Number.ofI64, dif_pos hneg]

/-- Built from null, booleans, integers below `9 * 10^15` in size, strings, arrays and objects. -/
inductive Writable : Value → Prop
  | null : Writable .null
  | bool (b : Bool) : Writable (.bool b)
  | posInt (n : UInt64) (h : n.toNat < 9000000000000000) : Writable (.number (.posInt n))
  | negInt (n : Int64) (neg : n < 0) (h : -9000000000000000 < n.toInt) : Writable (.number (.negInt n neg))
  | string (s : String) : Writable (.string s)
  | array {vs : List Value} (h : ∀ v ∈ vs, Writable v) : Writable (.array vs)
  | object {fs : List (String × Value)} (h : ∀ f ∈ fs, Writable f.2) (ordered : Map.Ordered fs) :
      Writable (.object fs)

theorem Writable.reads {v : Value} (h : Writable v) : Tidy v ∧ Reads (litToks v) (rereadValue v) := by
  induction h with
  | null => exact ⟨tidy_null, reads_null⟩
  | bool b => exact ⟨tidy_bool b, reads_bool b⟩
  | posInt n h =>
    refine ⟨tidy_posInt n, ?_⟩
    rw [litToks, numToks_eq (spells_posInt n), rereadValue, ← num_posInt n h]
    exact reads_num _
  | negInt n neg h =>
    refine ⟨tidy_negInt n neg, ?_⟩
    rw [litToks, numToks_eq (spells_negInt n neg), rereadValue, ← num_negInt n neg h]
    exact reads_minus _
  | string s => exact ⟨tidy_string s, reads_str _⟩
  | array _ ih => exact ⟨tidy_array fun v hv => (ih v hv).1, reads_array fun v hv => (ih v hv).2⟩
  | object _ _ ih => exact ⟨tidy_object fun f hf => (ih f hf).1, reads_object fun f hf => (ih f hf).2⟩

end

def plainChar (c : Char) : Bool := c == '\n' || c == '\t' || 32 ≤ c.toNat

def plainStr (s : String) : Bool := s.toList.all plainChar

mutual

def plain : Value → Bool
  | .null => true
  | .bool _ => true
  | .number _ => true
  | .string s => plainStr s
  | .array vs => plainItems vs
  | .object fs => plainFields fs

def plainItems : List Value → Bool
  | [] => true
  | v :: vs => plain v && plainItems vs

def plainFields : List (String × Value) → Bool
  | [] => true
  | (k, v) :: fs => plainStr k && plain v && plainFields fs

end

theorem reread_plain {c : Char} (h : plainChar c = true) : reread c = [c] := by
  unfold plainChar at h
  simp only [Bool.or_eq_true, beq_iff_eq, decide_eq_true_eq] at h
  exact if_pos (by rcases h with (h | h) | h <;> simp [h])

theorem plain_reread (c : Char) : ∀ d ∈ reread c, plainChar d = true := by
  by_cases h : c = '\n' ∨ c = '\t' ∨ 32 ≤ c.toNat
  · intro d hd
    unfold reread at hd
    rw [if_pos h, List.mem_singleton] at hd
    subst hd
    unfold plainChar
    simp only [Bool.or_eq_true, beq_iff_eq, decide_eq_true_eq]
    rcases h with h | h | h
    · exact .inl (.inl h)
    · exact .inl (.inr h)
    · exact .inr h
  · have hall : ∀ n, n < 32 → ∀ c, c = Char.ofNat n → ∀ d ∈ reread c, plainChar d = true := by
      simp only [forall_eq, ← List.all_iff_forall_prop]
      decide
    refine hall c.toNat ?_ c (Char.ofNat_toNat c).symm
    have : ¬ 32 ≤ c.toNat := fun hle => h (.inr (.inr hle))
    omega

theorem plainStr_reread (s : String) : plainStr (rereadStr s) = true := by
  unfold plainStr rereadStr
  rw [String.toList_ofList, List.all_eq_true]
  intro d hd
  obtain ⟨c, -, hc⟩ := List.mem_flatMap.mp hd
  exact plain_reread c d hc

theorem rereadStr_eq_iff (s : String) : rereadStr s = s ↔ plainStr s = true := by
  constructor
  · intro h
    rw [← h]
    exact plainStr_reread s
  · intro h
    have hall : ∀ cs : List Char, cs.all plainChar = true → cs.flatMap reread = cs := by
      intro cs hcs
      induction cs with
      | nil => rfl
      | cons c cs ih =>
        rw [List.all_cons, Bool.and_eq_true] at hcs
        rw [List.flatMap_cons, reread_plain hcs.1, ih hcs.2]
        rfl
    unfold rereadStr
    rw [hall s.toList h, String.ofList_toList]

theorem rereadItems_eq {vs : List Value} (h : ∀ v ∈ vs, rereadValue v = v ↔ plain v = true) :
    rereadItems vs = vs ↔ plainItems vs = true := by
  induction vs with
  | nil => simp [rereadItems, plainItems]
  | cons v vs ih =>
    simp only [rereadItems, plainItems, List.cons.injEq, Bool.and_eq_true]
    rw [h v (List.mem_cons_self ..), ih fun u hu => h u (List.mem_cons_of_mem _ hu)]

theorem rereadFields_eq {fs : List (String × Value)} (h : ∀ f ∈ fs, rereadValue f.2 = f.2 ↔ plain f.2 = true) :
    rereadFields fs = fs ↔ plainFields fs = true := by
  induction fs with
  | nil => simp [rereadFields, plainFields]
  | cons f fs ih =>
    obtain ⟨k, v⟩ := f
    simp only [rereadFields, plainFields, List.cons.injEq, Prod.mk.injEq, Bool.and_eq_true]
    rw [h (k, v) (List.mem_cons_self ..), rereadStr_eq_iff, ih fun u hu => h u (List.mem_cons_of_mem _ hu)]

theorem mem_rereadFields {fs : List (String × Value)} {f : String × Value} (h : f ∈ rereadFields fs) :
    ∃ k, f.1 = rereadStr k := by
  induction fs with
  | nil => cases h
  | cons g fs ih =>
    obtain ⟨k, v⟩ := g
    rw [rereadFields] at h
    rcases List.mem_cons.mp h with rfl | h
    · exact ⟨k, rfl⟩
    · exact ih h

theorem rereadFields_keys {fs : List (String × Value)} (h : ∀ f ∈ fs, plainStr f.1 = true) :
    (rereadFields fs).map (·.1) = fs.map (·.1) := by
  induction fs with
  | nil => rfl
  | cons f fs ih =>
    obtain ⟨k, v⟩ := f
    rw [rereadFields, List.map_cons, List.map_cons, ih fun g hg => h g (List.mem_cons_of_mem _ hg)]
    congr 1
    exact (rereadStr_eq_iff k).mpr (h (k, v) (List.mem_cons_self ..))

theorem rereadObject_eq {fs : List (String × Value)} (ordered : Map.Ordered fs) :
    Map.ofEntries (rereadFields fs) = fs ↔ rereadFields fs = fs := by
  constructor
  · intro h
    have hplain : ∀ f ∈ fs, plainStr f.1 = true := by
      intro f hf
      rw [← h] at hf
      rcases Map.mem_extend _ [] hf with hf | hf
      · obtain ⟨k, hk⟩ := mem_rereadFields hf
        rw [hk]
        exact plainStr_reread k
      · cases hf
    have hordered : Map.Ordered (rereadFields fs) := by
      rw [Map.ordered_iff_keys, rereadFields_keys hplain, ← Map.ordered_iff_keys]
      exact ordered
    exact (Map.extend_ordered _ hordered).symm.trans h
  · intro h
    rw [h]
    exact Map.extend_ordered fs ordered

section
variable [External]

omit [External] in
theorem Writable.reread_iff {v : Value} (h : Writable v) : rereadValue v = v ↔ plain v = true := by
  induction h with
  | null => simp [rereadValue, plain]
  | bool b => simp [rereadValue, plain]
  | posInt n h => simp [rereadValue, plain]
  | negInt n neg h => simp [rereadValue, plain]
  | string s => simp [rereadValue, plain, rereadStr_eq_iff]
  | array _ ih => simp [rereadValue, plain, rereadItems_eq ih]
  | object _ ordered ih =>
    simp [rereadValue, plain, rereadObject_eq ordered, rereadFields_eq ih]

theorem Path.length_le {i : Nat} {w r : Bytes} {ts : List Spanned} (h : Path i w ts r) :
    ts.length ≤ w.length := by
  induction h with
  | nil i r => exact Nat.le_refl _
  | @cons i v v' r t ts hlex _ ih =>
    have hv := List.length_pos_iff.mpr hlex.ne_nil
    have ht : (spanned i t).length ≤ 1 := by cases t <;> simp [spanned]
    rw [List.length_append, List.length_append]
    omega

/-- The text, lexed and read as one literal, is the value `v` and nothing more. -/
def RereadsAs (text : String) (v : Value) : Prop :=
  ∃ toks spans stop, lex (bytesOf text) = .ok toks ∧
    literalValue ⟨toks, bytesOf text⟩ (parseFuel (bytesOf text)) 0 = .ok ((v, spans, stop), toks.length - 1)

theorem rereadsAs_of_reads {v x : Value} (ht : Tidy v) (hr : Reads (litToks v) x) : RereadsAs v.render x := by
  obtain ⟨ts, hpath, hts⟩ := ht.spells 0 [] trivial
  have hbytes : bytesOf v.render = utf8 (chars v) := bytesOf_eq_utf8 _
  have hlen : (litToks v).length = ts.length := by rw [← hts, List.length_map]
  have hle := hpath.length_le
  have hafter : Input.after ⟨ts ++ [(.sym .newline, (utf8 (chars v)).length)], utf8 (chars v)⟩ 0 =
      litToks v ++ [.sym .newline] := by
    rw [← hts]
    simp [Input.after]
  have hfuel : (litToks v).length ≤ parseFuel (utf8 (chars v)) := by
    unfold parseFuel
    omega
  obtain ⟨spans, stop, hrun⟩ := hr.run hafter hfuel
  unfold RereadsAs
  rw [hbytes]
  refine ⟨_, spans, stop, lex_iff.mpr ⟨ts, rfl, hpath⟩, ?_⟩
  rw [hrun, hlen, Nat.zero_add, List.length_append, List.length_singleton, Nat.add_sub_cancel]

theorem RereadsAs.unique {text : String} {v w : Value} (h : RereadsAs text v) (h' : RereadsAs text w) :
    v = w := by
  obtain ⟨toks, spans, stop, hlex, hrun⟩ := h
  obtain ⟨toks', spans', stop', hlex', hrun'⟩ := h'
  rw [hlex] at hlex'
  cases hlex'
  rw [hrun] at hrun'
  cases hrun'
  rfl

/-- What `serde_json` writes, the flow language reads back exactly where every string is plain. -/
theorem literal_comes_back_iff (v : Value) (h : Writable v) :
    RereadsAs v.render v ↔ plain v = true := by
  obtain ⟨htidy, hreads⟩ := h.reads
  rw [← h.reread_iff]
  constructor
  · intro hv
    exact (rereadsAs_of_reads htidy hreads).unique hv
  · intro hv
    have hback := rereadsAs_of_reads htidy hreads
    rwa [hv] at hback

end

def rates : Value :=
  .object [("limit", .number (.posInt 250)), ("note", .array [.string "a \"b\"\n\té", .null])]

theorem literal_comes_back_rates :
    @RereadsAs ascii (@Value.render ascii rates) rates ∧ plain rates = true := by
  have hw : Writable rates := by
    refine .object ?_ (by
      unfold Map.Ordered
      decide)
    intro f hf
    simp only [List.mem_cons, List.not_mem_nil, or_false] at hf
    rcases hf with rfl | rfl
    · exact .posInt _ (by decide)
    · refine .array ?_
      intro v hv
      simp only [List.mem_cons, List.not_mem_nil, or_false] at hv
      rcases hv with rfl | rfl
      · exact .string _
      · exact .null
  have hp : plain rates = true := by decide
  exact ⟨(@literal_comes_back_iff ascii rates hw).mpr hp, hp⟩

/-- A carriage return comes back as the letter of its escape. -/
theorem carriage_return_is_lost : Writable (.string "\r") ∧
    @RereadsAs ascii (@Value.render ascii (.string "\r")) (.string "r") ∧
    ¬ @RereadsAs ascii (@Value.render ascii (.string "\r")) (.string "\r") := by
  have hback : @RereadsAs ascii (@Value.render ascii (.string "\r")) (.string "r") := by
    obtain ⟨htidy, hreads⟩ := @Writable.reads ascii _ (.string "\r")
    exact @rereadsAs_of_reads ascii _ _ htidy hreads
  refine ⟨.string _, hback, ?_⟩
  intro h
  have hsame := @RereadsAs.unique ascii _ _ _ hback h
  rw [Value.string.injEq] at hsame
  exact absurd hsame (by decide)

end Vejas.Vjs
