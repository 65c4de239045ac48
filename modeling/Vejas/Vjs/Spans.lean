import Vejas.Vjs.Editing
import Vejas.Vjs.Yields

/-! Where the tokens of a literal lie in the text, and what `set_literal` replaces of it. -/

namespace Vejas.Vjs
open Json Rust

def Tok.closes : Tok → Bool
  | .str _ => true
  | .num _ => true
  | .sym s => s == .true || s == .false || s == .null || s == .rBrack || s == .rBrace
  | _ => false

def Placed (p : Input) (s : Span) : Prop :=
  ∃ a b, a < b ∧ s = (p.posAt a, p.posAt b) ∧ (p.tokAt (b - 1)).closes = true

section
variable [External] {p : Input}

def Read (p : Input) (i : Nat) (l : Literal) (j : Nat) : Prop :=
  i < j ∧ (p.tokAt (j - 1)).closes = true ∧ l.2.2 = p.posAt j ∧ ∀ s ∈ l.2.1, Placed p s.2

omit [External] in
theorem read_token {t : Tok} {i : Nat} (v : Value) (ht : p.tokAt i = t) (hc : t.closes = true) :
    Yields (p.pos >>= fun stop => pure (v, [], stop)) (i + 1) (Read p i) := by
  refine Yields.pos (yields_pure ⟨Nat.lt_succ_self i, ?_, rfl, nofun⟩)
  rw [Nat.add_sub_cancel, ht]
  exact hc

mutual

theorem read_literalValue : ∀ fuel i, Yields (literalValue p fuel) i (Read p i)
  | 0, i => by
    intro a j hrun
    cases hrun
  | fuel + 1, i => by
    unfold literalValue
    refine Yields.next fun t ht => ?_
    split
    · exact read_token _ ht rfl
    · exact read_token _ ht rfl
    · exact read_token _ ht rfl
    · exact read_token _ ht rfl
    · exact read_token _ ht rfl
    · refine Yields.next fun u hu => ?_
      split
      · intro l j hrun
        obtain ⟨hlt, hrest⟩ := read_token _ hu rfl l j hrun
        exact ⟨by omega, hrest⟩
      · exact yields_fail _
    · refine yields_skipNewlines.bind fun _ j hj => ?_
      refine (read_literalItems fuel j).bind fun vs k hk => ?_
      exact Yields.pos (yields_pure ⟨by omega, by rw [hk.2]; rfl, rfl, nofun⟩)
    · refine yields_skipNewlines.bind fun _ j hj => ?_
      refine (read_literalFields fuel [] [] j).bind fun r k hk => ?_
      exact Yields.pos (yields_pure ⟨by omega, by rw [hk.2.1]; rfl, rfl, fun s hs => (hk.2.2 s hs).resolve_left nofun⟩)
    · exact yields_fail _

theorem read_literalItems : ∀ fuel i, Yields (literalItems p fuel) i fun _ j => i < j ∧ p.tokAt (j - 1) = .sym .rBrack
  | 0, i => by
    intro a j hrun
    cases hrun
  | fuel + 1, i => by
    unfold literalItems
    refine Yields.accept (fun ht => yields_pure ⟨Nat.lt_succ_self i, ht⟩) fun _ => ?_
    refine (read_literalValue fuel i).bind fun l j hl => ?_
    refine yields_itemEnd.bind fun _ k hk => ?_
    refine (read_literalItems fuel k).bind fun vs m hm => ?_
    have := hl.1
    exact yields_pure ⟨by omega, hm.2⟩

theorem read_literalFields : ∀ fuel map spans i, Yields (literalFields p fuel map spans) i fun r j =>
    i < j ∧ p.tokAt (j - 1) = .sym .rBrace ∧ ∀ s ∈ r.2, s ∈ spans ∨ Placed p s.2
  | 0, map, spans, i => by
    intro a j hrun
    cases hrun
  | fuel + 1, map, spans, i => by
    rw [literalFields]
    refine Yields.accept (fun ht => yields_pure ⟨Nat.lt_succ_self i, ht, fun _ hs => .inl hs⟩) fun _ => ?_
    refine yields_word.bind fun key j hj => yields_eat.bind fun _ k hk => Yields.pos ?_
    refine (read_literalValue fuel k).bind fun l m hl => Yields.pos ?_
    refine yields_itemEnd.bind fun _ n hn => ?_
    intro r o hrun
    obtain ⟨hlt, htok, hspans⟩ := read_literalFields fuel _ _ n r o hrun
    refine ⟨by have := hl.1; omega, htok, fun s hs => ?_⟩
    rcases hspans s hs with hs | hs
    · rcases List.mem_append.mp hs with hs | hs
      · exact .inl hs
      · rw [List.mem_singleton.mp hs]
        exact .inr ⟨k, m, hl.1, rfl, hl.2.1⟩
    · exact .inr hs

end

def SurfaceEntry.Placed (p : Input) (e : SurfaceEntry) : Prop :=
  Vjs.Placed p e.valueSpan ∧ ∀ s ∈ e.entrySpans, Vjs.Placed p s.2

theorem placed_surfaceEntry {fuel i : Nat} : Yields (surfaceEntry p fuel) i fun r _ => ∀ e, r = some e → e.Placed p := by
  intro r j hrun e he
  subst he
  unfold surfaceEntry at hrun
  split at hrun
  next name _ _ =>
    split at hrun
    next =>
      unfold tryLiteral at hrun
      cases hl : literalValue p fuel (i + 2) with
      | error f => rw [hl] at hrun; cases f <;> cases hrun
      | ok r =>
        obtain ⟨l, k⟩ := r
        obtain ⟨hlt, hclose, hstop, hspans⟩ := read_literalValue fuel (i + 2) l k hl
        rw [hl] at hrun
        dsimp only at hrun
        cases hnl : (p.tokAt k).is .newline with
        | false => rw [hnl] at hrun; cases hrun
        | true =>
          rw [hnl] at hrun
          cases hrun
          exact ⟨⟨i + 2, j, hlt, by rw [← hstop], hclose⟩, hspans⟩
    next => cases hrun
  next => cases hrun

theorem placed_topLevel {d : Draft} {fuel i : Nat} :
    Yields (topLevel p d fuel) i fun d' _ => ∀ e ∈ d'.surface, e ∈ d.surface ∨ e.Placed p := by
  have hkeep : ∀ {α : Type} {m : Parse α} {f : α → Draft} {d' j}, (m >>= fun a => pure (f a)) i = .ok (d', j) →
      (∀ a, (f a).surface = d.surface) → ∀ e ∈ d'.surface, e ∈ d.surface ∨ e.Placed p := by
    intro α m f d' j hrun hf e he
    obtain ⟨a, k, -, hrun⟩ := of_parse_bind hrun
    cases hrun
    rw [hf a] at he
    exact .inl he
  unfold topLevel
  intro d' j hrun
  obtain ⟨t, i', hpeek, hrun⟩ := of_parse_bind hrun
  obtain rfl : i = i' := congrArg Prod.snd (Except.ok.inj hpeek)
  clear hpeek
  split at hrun
  · exact hkeep hrun fun _ => rfl
  · exact hkeep hrun fun _ => rfl
  · exact hkeep hrun fun _ => rfl
  · exact hkeep hrun fun _ => rfl
  · obtain ⟨r, k, hr, hrun⟩ := of_parse_bind hrun
    cases r with
    | none =>
      obtain ⟨s, m, -, hrun⟩ := of_parse_bind hrun
      cases hrun
      exact fun e he => .inl he
    | some e =>
      cases hrun
      intro e' he'
      rcases List.mem_append.mp he' with he' | he'
      · exact .inl he'
      · rw [List.mem_singleton.mp he']
        exact .inr (placed_surfaceEntry _ _ hr e rfl)

theorem placed_items : ∀ fuel (d : Draft) i, (∀ e ∈ d.surface, e.Placed p) →
    Yields (items p fuel d) i fun d' _ => ∀ e ∈ d'.surface, e.Placed p
  | 0, d, i, _ => by
    intro a j hrun
    cases hrun
  | fuel + 1, d, i, hd => by
    intro d' j hrun
    unfold items at hrun
    obtain ⟨_, k, -, hrun⟩ := of_parse_bind hrun
    obtain ⟨b, k', hend, hrun⟩ := of_parse_bind hrun
    cases hend
    split at hrun
    · cases hrun
      exact hd
    · obtain ⟨d₁, m, htop, hrun⟩ := of_parse_bind hrun
      exact placed_items fuel d₁ m (fun e he => (placed_topLevel _ _ htop e he).elim (hd e) id) d' j hrun

theorem placed_of_parse {src : Bytes} {prog : Program} (h : parseBytes src = .ok prog) :
    ∃ toks, lex src = .ok toks ∧ ∀ e ∈ prog.surface, e.Placed ⟨toks, src⟩ := by
  unfold parseBytes at h
  obtain ⟨toks, hlex, h⟩ := of_bind_ok h
  obtain ⟨⟨d, k⟩, hitems, h⟩ := of_bind_ok h
  cases h
  exact ⟨toks, hlex, placed_items _ _ 0 (fun e he => by cases he) d k hitems⟩

end

section
variable [External]

def tokenEnd (src : Bytes) (i : Nat) : Nat :=
  match src.drop i with
  | [] => i
  | c :: rest =>
    match lexOne src src.length i c rest with
    | .ok (_, ni) => ni
    | .error _ => i

def ownEnd (src : Bytes) (stop : Nat) : Nat :=
  match lex src with
  | .ok toks => ((toks.filter (·.2 < stop)).getLast?.map fun t => tokenEnd src t.2).getD stop
  | .error _ => stop

def isBlank (b : UInt8) : Bool := b == byte ' ' || b == byte '\t' || b == byte '\r'

theorem tokenEnd_eq {src v r : Bytes} {i : Nat} {t : Option Tok} (hsrc : src.drop i = v ++ r) (h : Lexeme v t r) :
    tokenEnd src i = i + v.length := by
  obtain ⟨need, c, rest, hcons, hone⟩ := lexOne_of_lexeme h
  have hdrop : src.drop i = c :: rest := hsrc.trans hcons
  -- the fuel is enough for the whole text, so for one lexeme
  have hne : lexOne src src.length i c rest ≠ .error .outOfFuel := by
    intro hout
    have hfits := lexFrom_fits src (src.length + 1) i (by omega)
    rw [lexFrom_succ _ hdrop, hout] at hfits
    exact hfits rfl
  have hmax := hone (Nat.le_max_left need src.length) hsrc
  have hsame : lexOne src (max need src.length) i c rest = lexOne src src.length i c rest := by
    refine lexOne_settled (fun hstr => ?_) hne
    exact lexFstring_eq (Nat.le_max_right _ _) hstr
  unfold tokenEnd
  rw [hdrop]
  dsimp only
  rw [← hsame, hmax]

theorem Path.split {i : Nat} {w r : Bytes} {ts ts₁ ts₂ : List Spanned} {t : Tok} {pos : Nat} (h : Path i w ts r)
    (hts : ts = ts₁ ++ (t, pos) :: ts₂) :
    ∃ w₁ v w₂, w = w₁ ++ v ++ w₂ ∧ pos = i + w₁.length ∧ Path i w₁ ts₁ (v ++ w₂ ++ r) ∧ Lexeme v (some t) (w₂ ++ r) ∧
      Path (pos + v.length) w₂ ts₂ r := by
  induction h generalizing ts₁ with
  | nil i r => exact absurd hts (by simp)
  | @cons i v v' r t₀ ts hlex hpath ih =>
    have hlater : ∀ ts₁', ts = ts₁' ++ (t, pos) :: ts₂ → ts₁ = spanned i t₀ ++ ts₁' →
        ∃ w₁ u w₂, v ++ v' = w₁ ++ u ++ w₂ ∧ pos = i + w₁.length ∧ Path i w₁ ts₁ (u ++ w₂ ++ r) ∧
          Lexeme u (some t) (w₂ ++ r) ∧ Path (pos + u.length) w₂ ts₂ r := by
      rintro ts₁' htail rfl
      obtain ⟨w₁, u, w₂, rfl, rfl, h₁, hu, h₂⟩ := ih htail
      refine ⟨v ++ w₁, u, w₂, by simp only [List.append_assoc], by rw [List.length_append]; omega, ?_, hu, h₂⟩
      refine .cons ?_ h₁
      simpa only [List.append_assoc] using hlex
    cases t₀ with
    | none => exact hlater ts₁ hts rfl
    | some t₁ =>
      cases ts₁ with
      | nil =>
        simp only [spanned, Option.toList_some, List.map_cons, List.map_nil, List.cons_append, List.nil_append,
          List.cons.injEq, Prod.mk.injEq] at hts
        obtain ⟨⟨rfl, rfl⟩, rfl⟩ := hts
        exact ⟨[], v, v', rfl, rfl, .nil _ _, hlex, hpath⟩
      | cons x ts₁ =>
        obtain ⟨rfl, htail⟩ := List.cons.inj hts
        exact hlater ts₁ htail rfl

theorem Path.bounds {i : Nat} {w r : Bytes} {ts : List Spanned} (h : Path i w ts r) :
    ∀ t ∈ ts, i ≤ t.2 ∧ t.2 < i + w.length := by
  induction h with
  | nil i r => nofun
  | @cons i v v' r t₀ ts hlex _ ih =>
    intro t ht
    have hpos := List.length_pos_iff.mpr hlex.ne_nil
    rw [List.length_append]
    rcases List.mem_append.mp ht with ht | ht
    · obtain ⟨x, -, rfl⟩ := List.mem_map.mp ht
      exact ⟨Nat.le_refl _, by show i < _; omega⟩
    · have := ih t ht
      omega

theorem Path.blank {i : Nat} {w r : Bytes} {ts : List Spanned} (h : Path i w ts r) (hts : ts = [])
    (hhash : byte '#' ∉ w) : ∀ b ∈ w, isBlank b = true := by
  induction h with
  | nil i r => nofun
  | @cons i v v' r t₀ ts hlex _ ih =>
    obtain ⟨hsp, hts⟩ := List.append_eq_nil_iff.mp hts
    intro b hb
    rcases List.mem_append.mp hb with hb | hb
    · cases hlex with
      | blank _ hc =>
        rw [List.mem_singleton.mp hb]
        rcases hc with rfl | rfl | rfl <;> decide
      | comment => exact absurd (List.mem_append_left _ (List.mem_cons_self ..)) hhash
      | _ => cases hsp
    · exact ih hts (fun hm => hhash (List.mem_append_right _ hm)) b hb

omit [External] in
theorem not_blank {P : UInt8 → Bool} {b : UInt8} (hb : P b = true) (hspace : P (byte ' ') = false)
    (htab : P (byte '\t') = false) (hreturn : P (byte '\r') = false) : isBlank b = false := by
  rw [← Bool.not_eq_true]
  intro h
  simp only [isBlank, Bool.or_eq_true, beq_iff_eq] at h
  rcases h with (rfl | rfl) | rfl
  · rw [hspace] at hb; cases hb
  · rw [htab] at hb; cases hb
  · rw [hreturn] at hb; cases hb

theorem Lexeme.last {v r : Bytes} {t : Tok} (h : Lexeme v (some t) r) (hc : t.closes = true) :
    ∃ v' b, v = v' ++ [b] ∧ isBlank b = false := by
  cases h with
  | newline => cases hc
  | string _ hs =>
    obtain ⟨w', rfl⟩ := stringBody_last hs rfl
    exact ⟨byte '"' :: w', byte '"', rfl, by decide⟩
  | fstring => cases hc
  | number hd hw =>
    obtain ⟨w', b, hlast, hb⟩ := last_of_all (P := isNumByte) (by rw [isNumByte, hd]; rfl) hw
    exact ⟨w', b, hlast, not_blank hb (by decide) (by decide) (by decide)⟩
  | word ha hw =>
    obtain ⟨w', b, hlast, hb⟩ := last_of_all (isWordByte_of_start ha) hw
    exact ⟨w', b, hlast, not_blank hb (by decide) (by decide) (by decide)⟩
  | two _ htwo =>
    -- no symbol of two bytes closes a literal
    have hnone : ∀ k ∈ twoByte, (Tok.sym k.2).closes = false := by decide
    obtain ⟨l₁, l₂, hl, -⟩ := List.lookup_eq_some_iff.mp htwo
    rw [hnone (_, _) (hl ▸ List.mem_append_right _ (List.mem_cons_self ..))] at hc
    cases hc
  | @one c s _ hsym _ => exact ⟨[], c, rfl, not_blank hsym.1 (by decide) (by decide) (by decide)⟩

/-- The text around a literal: what is before it, its own tokens, what is between them and the next token,
and the rest. -/
structure Own (src : Bytes) (start stop : Nat) (front own gap back : Bytes) : Prop where
  text : src = front ++ own ++ gap ++ back
  front_length : front.length = start
  stop_eq : stop = start + own.length + gap.length
  own_end : ownEnd src stop = start + own.length
  last : ∃ own' b, own = own' ++ [b] ∧ isBlank b = false
  gap_path : Path (start + own.length) gap [] back

theorem Path.gap {i : Nat} {w : Bytes} {ts : List Spanned} (h : Path i w ts []) :
    ∃ gap back, w = gap ++ back ∧ Path i gap [] back ∧ (∀ t ∈ ts, i + gap.length ≤ t.2) ∧
      ((ts ++ [(.sym .newline, i + w.length)])[0]?.map (·.2)) = some (i + gap.length) := by
  cases ts with
  | nil => exact ⟨w, [], (List.append_nil w).symm, h, nofun, rfl⟩
  | cons t ts =>
    obtain ⟨gap, v, w₂, rfl, hpos, hgap, hlex, hrest⟩ := h.split (show t :: ts = [] ++ (t.1, t.2) :: ts from rfl)
    refine ⟨gap, v ++ w₂, List.append_assoc .., ?_, ?_, by rw [← hpos]; rfl⟩
    · simpa using hgap
    · intro t' ht'
      rcases List.mem_cons.mp ht' with rfl | ht'
      · omega
      · have := (hrest.bounds t' ht').1
        omega

omit [External] in
theorem posAt_of_getElem? {p : Input} {i : Nat} {x : Spanned} (h : p.toks[i]? = some x) : p.posAt i = x.2 := by
  unfold Input.posAt
  rw [h]
  rfl

omit [External] in
theorem placed_tokens {src : Bytes} {ts : List Spanned} {final : Spanned} {start stop : Nat}
    (hfinal : final.1.closes = false) (h : Placed ⟨ts ++ [final], src⟩ (start, stop)) :
    ∃ ts₁ t pos ts₂, ts = ts₁ ++ (t, pos) :: ts₂ ∧ t.closes = true ∧ (∃ x ∈ ts₁ ++ [(t, pos)], start = x.2) ∧
      (ts₂ ++ [final])[0]?.map (·.2) = some stop := by
  obtain ⟨a, b, hab, hspan, hclose⟩ := h
  obtain ⟨hstart, hstop⟩ := Prod.mk.inj hspan
  obtain ⟨n, rfl⟩ : ∃ n, b = n + 1 := ⟨b - 1, by omega⟩
  rw [Nat.add_sub_cancel] at hclose
  have hn : n < ts.length := by
    by_contra hge
    unfold Input.tokAt Input.tokAt? at hclose
    rw [List.getElem?_append_right (Nat.le_of_not_lt hge)] at hclose
    cases hk : n - ts.length with
    | zero =>
      rw [hk] at hclose
      rw [show ((([final] : List Spanned)[0]?.map (·.1)).getD (.sym .newline)) = final.1 from rfl, hfinal] at hclose
      cases hclose
    | succ k => rw [hk] at hclose; cases hclose
  have hsplit : ts = ts.take n ++ (ts[n].1, ts[n].2) :: ts.drop (n + 1) := by
    rw [← List.drop_eq_getElem_cons hn, List.take_append_drop]
  have hlen : (ts.take n).length = n := by rw [List.length_take, Nat.min_eq_left (Nat.le_of_lt hn)]
  refine ⟨ts.take n, ts[n].1, ts[n].2, ts.drop (n + 1), hsplit, ?_, ?_, ?_⟩
  · unfold Input.tokAt Input.tokAt? at hclose
    rwa [List.getElem?_append_left hn, List.getElem?_eq_getElem hn] at hclose
  · have ha : a < ts.length := by omega
    have hget : (ts ++ [final])[a]? = some ts[a] := by
      rw [List.getElem?_append_left ha, List.getElem?_eq_getElem ha]
    refine ⟨ts[a], ?_, hstart.trans (posAt_of_getElem? hget)⟩
    rw [show ts.take n ++ [(ts[n].1, ts[n].2)] = ts.take (n + 1) from List.take_concat_get' ts n hn]
    exact List.mem_take_iff_getElem.mpr ⟨a, by omega, rfl⟩
  · have hdrop : (ts ++ [final])[n + 1]? = (ts.drop (n + 1) ++ [final])[0]? := by
      rw [← List.drop_append_of_le_length (by omega), List.getElem?_drop, Nat.add_zero]
    obtain ⟨x, hx⟩ : ∃ x, (ts.drop (n + 1) ++ [final])[0]? = some x := by
      cases ts.drop (n + 1) with
      | nil => exact ⟨_, rfl⟩
      | cons y ys => exact ⟨_, rfl⟩
    rw [hx, hstop, posAt_of_getElem? (hdrop.trans hx)]
    rfl

theorem own_of_placed {src : Bytes} {toks : List Spanned} {start stop : Nat} (hlex : lex src = .ok toks)
    (h : Placed ⟨toks, src⟩ (start, stop)) : ∃ front own gap back, Own src start stop front own gap back := by
  obtain ⟨ts, rfl, hpath⟩ := lex_iff.mp hlex
  obtain ⟨ts₁, t, pos, ts₂, rfl, hclose, ⟨x, hx, rfl⟩, hnext⟩ := placed_tokens rfl h
  obtain ⟨w₁, v, w₂, hsrc, hpos, hw₁, hv, hw₂⟩ := hpath.split rfl
  obtain ⟨gap, back, rfl, hgap, hlater, hstop⟩ := hw₂.gap
  rw [Nat.zero_add] at hpos
  have hlen : src.length = pos + v.length + (gap ++ back).length := by
    rw [hsrc, List.length_append, List.length_append, hpos]
  rw [← hlen, hnext] at hstop
  cases hstop
  -- the first token is not after the last
  have hfirst : x.2 ≤ pos := by
    rcases List.mem_append.mp hx with hx | hx
    · have := (hw₁.bounds x hx).2
      omega
    · rw [List.mem_singleton.mp hx]
  have hvpos := List.length_pos_iff.mpr hv.ne_nil
  have hown : ownEnd src (pos + v.length + gap.length) = pos + v.length := by
    have hbefore : (ts₁ ++ [(t, pos)]).filter (·.2 < pos + v.length + gap.length) = ts₁ ++ [(t, pos)] := by
      rw [List.filter_eq_self]
      intro y hy
      rcases List.mem_append.mp hy with hy | hy
      · have := (hw₁.bounds y hy).2
        exact decide_eq_true (by omega)
      · rw [List.mem_singleton.mp hy]
        exact decide_eq_true (by show pos < _; omega)
    have hafter : (ts₂ ++ [((.sym .newline, src.length) : Spanned)]).filter (·.2 < pos + v.length + gap.length) = [] := by
      rw [List.filter_eq_nil_iff]
      intro y hy
      rw [decide_eq_true_eq, Nat.not_lt]
      rcases List.mem_append.mp hy with hy | hy
      · exact hlater y hy
      · rw [List.mem_singleton.mp hy, hlen, List.length_append]
        show _ ≤ _
        omega
    unfold ownEnd
    rw [hlex]
    dsimp only
    rw [List.append_assoc, List.cons_append, List.append_cons, List.filter_append, hbefore, hafter,
      List.append_nil, List.getLast?_concat]
    refine tokenEnd_eq ?_ hv
    rw [hsrc, List.append_nil, List.append_assoc, hpos, List.drop_left]
  obtain ⟨v', c, rfl, hc⟩ := hv.last hclose
  have hw : w₁.take x.2 ++ w₁.drop x.2 = w₁ := List.take_append_drop ..
  have hlength : x.2 + (w₁.drop x.2 ++ (v' ++ [c])).length = pos + (v' ++ [c]).length := by
    rw [List.length_append, List.length_drop]
    omega
  refine ⟨w₁.take x.2, w₁.drop x.2 ++ (v' ++ [c]), gap, back, ?_, ?_, by omega, by omega, ?_, by rwa [hlength]⟩
  · rw [← List.append_assoc, hw, hsrc, List.append_assoc (w₁ ++ _)]
  · rw [List.length_take]
    omega
  · exact ⟨w₁.drop x.2 ++ v', c, (List.append_assoc ..).symm, hc⟩

omit [External] in
theorem spanEnd_succ (src : Bytes) (start m : Nat) : spanEnd src start (m + 1) =
    if start < m + 1 && isBlank (src.getD m 0) then spanEnd src start m else m + 1 := rfl

omit [External] in
theorem spanEnd_le (src : Bytes) (start stop : Nat) : spanEnd src start stop ≤ stop := by
  induction stop with
  | zero => exact Nat.le_refl 0
  | succ stop ih =>
    rw [spanEnd_succ]
    split
    · omega
    · exact Nat.le_refl _

omit [External] in
theorem spanEnd_blank {src : Bytes} {start e : Nat} (n : Nat) (hstart : start ≤ e)
    (hblank : ∀ k, k < n → isBlank (src.getD (e + 1 + k) 0) = true) (hlast : isBlank (src.getD e 0) = false) :
    spanEnd src start (e + 1 + n) = e + 1 := by
  induction n with
  | zero => rw [Nat.add_zero, spanEnd_succ, hlast, Bool.and_false, if_neg Bool.false_ne_true]
  | succ n ih =>
    rw [← Nat.add_assoc, spanEnd_succ, hblank n (Nat.lt_succ_self n), Bool.and_true,
      if_pos (decide_eq_true (by omega))]
    exact ih fun k hk => hblank k (by omega)

omit [External] in
theorem lt_spanEnd {src : Bytes} {start k stop : Nat} (hk : isBlank (src.getD k 0) = false) (hstop : k < stop) :
    k < spanEnd src start stop := by
  induction stop with
  | zero => omega
  | succ stop ih =>
    rw [spanEnd_succ]
    split
    next hb =>
      have hne : k ≠ stop := by
        rintro rfl
        rw [hk, Bool.and_false] at hb
        cases hb
      exact ih (by omega)
    next => exact hstop

omit [External] in
theorem getD_append_right (as bs : Bytes) (k : Nat) : (as ++ bs).getD (as.length + k) 0 = bs.getD k 0 := by
  rw [List.getD_eq_getElem?_getD, List.getD_eq_getElem?_getD, List.getElem?_append_right (Nat.le_add_right _ _),
    Nat.add_sub_cancel_left]

omit [External] in
theorem getD_append_left {as : Bytes} {k : Nat} (bs : Bytes) (h : k < as.length) : (as ++ bs).getD k 0 = as[k] := by
  rw [List.getD_eq_getElem?_getD, List.getElem?_append_left h, List.getElem?_eq_getElem h]
  rfl

namespace Own
variable {src front own gap back : Bytes} {start stop : Nat}

theorem gap_eq (h : Own src start stop front own gap back) : (src.take stop).drop (ownEnd src stop) = gap := by
  have hfront := h.front_length
  rw [h.own_end, h.stop_eq, h.text, List.take_left' (by simp only [List.length_append]; omega),
    List.drop_left' (by rw [List.length_append]; omega)]

theorem spanEnd_eq (h : Own src start stop front own gap back) (hhash : byte '#' ∉ gap) :
    spanEnd src start stop = ownEnd src stop := by
  obtain ⟨own', b, rfl, hb⟩ := h.last
  have hblank := h.gap_path.blank rfl hhash
  have hfront := h.front_length
  have hstop := h.stop_eq
  have hown := h.own_end
  rw [List.length_append, List.length_singleton] at hown hstop
  rw [hown, hstop, ← Nat.add_assoc]
  refine spanEnd_blank gap.length (by omega) (fun k hk => ?_) ?_
  · have hsrc : src = front ++ (own' ++ [b]) ++ (gap ++ back) := by rw [h.text, List.append_assoc]
    have hlen : start + own'.length + 1 = (front ++ (own' ++ [b])).length := by
      simp only [List.length_append, List.length_singleton]
      omega
    rw [hsrc, hlen, getD_append_right, getD_append_left back hk]
    exact hblank _ (List.getElem_mem hk)
  · have hsrc : src = front ++ own' ++ (b :: (gap ++ back)) := by rw [h.text]; simp
    have hlen : start + own'.length = (front ++ own').length + 0 := by
      rw [List.length_append]
      omega
    rw [hsrc, hlen, getD_append_right]
    exact hb

theorem lt_spanEnd (h : Own src start stop front own gap back) (hhash : byte '#' ∈ gap) :
    ownEnd src stop < spanEnd src start stop := by
  obtain ⟨k, hk, hget⟩ := List.getElem_of_mem hhash
  have hfront := h.front_length
  have hsrc : src = front ++ own ++ (gap ++ back) := by rw [h.text, List.append_assoc]
  have hlen : start + own.length = (front ++ own).length := by
    rw [List.length_append]
    omega
  have hbyte : isBlank (src.getD (start + own.length + k) 0) = false := by
    rw [hsrc, hlen, getD_append_right, getD_append_left back hk, hget]
    decide
  have hstop : start + own.length + k < stop := by
    rw [h.stop_eq]
    omega
  rw [h.own_end]
  exact Nat.lt_of_le_of_lt (Nat.le_add_right _ k) (Vjs.lt_spanEnd hbyte hstop)

end Own

/-- The span that `set_literal` replaces, where the constant or the entry exists. -/
def literalSpan (src name key : String) : Option Span :=
  match parse src with
  | .error _ => none
  | .ok prog => do
    let entry ← prog.surface.find? (·.name == name)
    if wholeConstant key then some entry.valueSpan else (entry.entrySpans.find? (·.1 == key)).map (·.2)

theorem bytesOf_splice {src new out : String} {start stop : Nat} (h : splice (bytesOf src) start stop new = .ok out) :
    bytesOf out = (bytesOf src).take start ++ bytesOf new ++ (bytesOf src).drop stop := by
  unfold splice at h
  obtain ⟨front, hfront, h⟩ := of_bind_ok h
  obtain ⟨back, hback, h⟩ := of_bind_ok h
  obtain ⟨prog, -, h⟩ := of_bind_ok h
  cases h
  obtain ⟨-, -, hstart, rfl⟩ := slice_ok hfront
  obtain ⟨hle, hstop, -, rfl⟩ := slice_ok hback
  have hall : ((bytesOf src).drop stop).take ((bytesOf src).length - stop) = (bytesOf src).drop stop :=
    List.take_of_length_le (by rw [List.length_drop])
  rw [List.drop_zero, Nat.sub_zero, hall]
  rw [bytesOf_eq_utf8 src] at hstart hstop ⊢
  obtain ⟨as, bs, has, rfl⟩ := split_at_boundary hstart
  obtain ⟨cs, ds, hcs, rfl⟩ := split_at_boundary hstop
  have htake : (utf8 src.toList).take (utf8 as).length = utf8 as := by
    rw [has, utf8_append, List.take_left]
  have hdrop : (utf8 src.toList).drop (utf8 cs).length = utf8 ds := by
    rw [hcs, utf8_append, List.drop_left]
  rw [htake, hdrop, bytesOf_eq_utf8 new, ← utf8_append, ← utf8_append, textOf_utf8, bytesOf_ofList]

theorem setLiteral_span {src name key out : String} {new : Value} {start stop : Nat}
    (h : setLiteral src name key new = .ok out) (hspan : literalSpan src name key = some (start, stop)) :
    splice (bytesOf src) start (spanEnd (bytesOf src) start (min stop (bytesOf src).length)) new.render = .ok out ∧
      ∃ toks, lex (bytesOf src) = .ok toks ∧ Placed ⟨toks, bytesOf src⟩ (start, stop) := by
  unfold setLiteral at h
  unfold literalSpan at hspan
  obtain ⟨prog, hparse, h⟩ := of_bind_ok h
  rw [hparse] at hspan
  obtain ⟨toks, hlex, hplaced⟩ := placed_of_parse hparse
  obtain ⟨entry, hentry, hspan⟩ := Option.bind_eq_some_iff.mp hspan
  rw [hentry] at h
  dsimp only at h
  have hmem := hplaced entry (List.mem_of_find?_eq_some hentry)
  split at hspan
  next hwhole =>
    rw [if_pos hwhole, hspan] at h
    exact ⟨h, toks, hlex, Option.some.inj hspan ▸ hmem.1⟩
  next hwhole =>
    rw [if_neg hwhole, hspan] at h
    obtain ⟨s, hs, hspan⟩ := Option.map_eq_some_iff.mp hspan
    refine ⟨h, toks, hlex, ?_⟩
    rw [← hspan]
    exact hmem.2 s (List.mem_of_find?_eq_some hs)

/-- `set_literal` on an existing literal replaces exactly the bytes of its own tokens just when no comment
stands between its last token and the next one. -/
theorem setLiteral_own_iff {src name key out : String} {new : Value} {start stop : Nat}
    (h : setLiteral src name key new = .ok out) (hspan : literalSpan src name key = some (start, stop)) :
    bytesOf out = (bytesOf src).take start ++ bytesOf new.render ++ (bytesOf src).drop (ownEnd (bytesOf src) stop) ↔
      byte '#' ∉ ((bytesOf src).take stop).drop (ownEnd (bytesOf src) stop) := by
  obtain ⟨hsplice, toks, hlex, hplaced⟩ := setLiteral_span h hspan
  obtain ⟨front, own, gap, back, hown⟩ := own_of_placed hlex hplaced
  have hlen := congrArg List.length hown.text
  have hfront := hown.front_length
  have hstop := hown.stop_eq
  simp only [List.length_append] at hlen
  rw [Nat.min_eq_left (by omega)] at hsplice
  rw [bytesOf_splice hsplice, hown.gap_eq]
  constructor
  · intro heq hhash
    have hlt := hown.lt_spanEnd hhash
    have hle := spanEnd_le (bytesOf src) start stop
    have := congrArg List.length heq
    simp only [List.length_append, List.length_drop] at this
    omega
  · intro hhash
    rw [hown.spanEnd_eq hhash]

end

theorem setLiteral_own_plain :
    @setLiteral ascii "A = true \nB = 1\n" "A" "" (.bool false) = .ok "A = false \nB = 1\n" ∧
      bytesOf "A = false \nB = 1\n" = (bytesOf "A = true \nB = 1\n").take 4 ++ bytesOf (@Value.render ascii (.bool false)) ++
        (bytesOf "A = true \nB = 1\n").drop (@ownEnd ascii (bytesOf "A = true \nB = 1\n") 9) := by
  have hset : @setLiteral ascii "A = true \nB = 1\n" "A" "" (.bool false) = .ok "A = false \nB = 1\n" := rfl
  refine ⟨hset, (@setLiteral_own_iff ascii _ _ _ _ _ _ _ hset rfl).mpr ?_⟩
  decide

/-- The comment after a constant is deleted with its value. -/
theorem setLiteral_drops_comment :
    @setLiteral ascii "A = true # on\n" "A" "" (.bool false) = .ok "A = false\n" ∧
      @literalSpan ascii "A = true # on\n" "A" "" = some (4, 13) ∧
      bytesOf "A = false\n" ≠ (bytesOf "A = true # on\n").take 4 ++ bytesOf (@Value.render ascii (.bool false)) ++
        (bytesOf "A = true # on\n").drop (@ownEnd ascii (bytesOf "A = true # on\n") 13) :=
  ⟨rfl, rfl, by decide⟩

end Vejas.Vjs
