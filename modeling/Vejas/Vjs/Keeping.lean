import Vejas.Vjs.Rendering
import Vejas.Vjs.Yields

/-! The parser keeps what the text says. The expressions and statements it reads are rendered by the
tokens it takes, as long as no clause follows an `else` and each hole is a single expression. -/

namespace Vejas.Vjs
open Json Rust

section
variable {α β : Type} {p : Input} {i j : Nat}

theorem Yields.peek {f : Tok → Parse β} {Q : β → Nat → Prop} (h : ∀ t, p.tokAt i = t → Yields (f t) i Q) :
    Yields (p.peek >>= f) i Q := h _ rfl

theorem Yields.peek2 {f : Option Tok → Parse β} {Q : β → Nat → Prop} (h : Yields (f (p.tokAt? (i + 1))) i Q) :
    Yields (p.peek2 >>= f) i Q := h

theorem Yields.sees {s : Sym} {f : Bool → Parse β} {Q : β → Nat → Prop} (h : Yields (f ((p.tokAt i).is s)) i Q) :
    Yields (p.sees s >>= f) i Q := h

theorem Yields.advance {f : Unit → Parse β} {Q : β → Nat → Prop} (h : Yields (f ()) (i + 1) Q) :
    Yields (Input.advance >>= f) i Q := h

theorem Yields.atEnd {f : Bool → Parse β} {Q : β → Nat → Prop} (h : ∀ b, Yields (f b) i Q) :
    Yields (p.atEnd >>= f) i Q := h _

theorem stand_cons {t : Tok} {ts : List Tok} (h : p.tokAt i = t) (ht : t.is .newline = false)
    (tail : Stand p (i + 1) ts j) : Stand p i (t :: ts) j := by
  refine .cons ?_ tail
  unfold Input.tokAt at h
  cases hi : p.tokAt? i with
  | none =>
    rw [hi] at h
    rw [← h] at ht
    cases ht
  | some u =>
    rw [hi] at h
    exact congrArg some h

theorem stand_one {t : Tok} (h : p.tokAt i = t) (ht : t.is .newline = false) : Stand p i [t] (i + 1) :=
  stand_cons h ht (.nil _)

theorem stand_after {ts : List Tok} (h : Stand p i ts j) : p.after i = ts ++ p.after j := by
  induction h with
  | nil i => rfl
  | @cons i j t ts h tail ih =>
    unfold Input.after at ih ⊢
    unfold Input.tokAt? at h
    obtain ⟨s, hs, rfl⟩ := Option.map_eq_some_iff.mp h
    rw [List.drop_eq_getElem_cons (List.getElem?_eq_some_iff.mp hs).1, List.map_cons, ih,
      (List.getElem?_eq_some_iff.mp hs).2]
    rfl

theorem taken_newlines : Yields p.skipNewlines i fun _ j => ∃ ts, Blank ts ∧ Stand p i ts j := by
  intro _ j hrun
  cases hrun
  refine ⟨((p.toks.drop i).takeWhile fun t => t.1.is .newline).map (·.1), ?_, ?_⟩
  · intro t ht
    obtain ⟨s, hs, rfl⟩ := List.mem_map.mp ht
    exact Tok.eq_of_is (List.all_eq_true.mp List.all_takeWhile s hs)
  · have hafter : p.after i = ((p.toks.drop i).takeWhile fun t => t.1.is .newline).map (·.1) ++
        ((p.toks.drop i).dropWhile fun t => t.1.is .newline).map (·.1) := by
      rw [← List.map_append, List.takeWhile_append_dropWhile]
      rfl
    have hstand := stand_of_after hafter
    rwa [List.length_map] at hstand

theorem taken_itemEnd : Yields p.itemEnd i fun _ j => ∃ ts, Separator ts ∧ Stand p i ts j := by
  unfold Input.itemEnd
  refine taken_newlines.bind fun _ j hj => ?_
  obtain ⟨ts, hblank, hstand⟩ := hj
  refine Yields.accept (fun hcomma => ?_) fun _ => yields_pure ⟨ts, .inl hblank, hstand⟩
  intro _ k hrun
  obtain ⟨us, hblank', hstand'⟩ := taken_newlines _ k hrun
  exact ⟨ts ++ .sym .comma :: us, .inr ⟨ts, us, hblank, hblank', rfl⟩, hstand.append (stand_cons hcomma rfl hstand')⟩

theorem taken_comma : Yields (p.accept .comma) i fun _ j => ∃ ts, Separator ts ∧ Stand p i ts j := by
  intro _ j hrun
  unfold Input.accept at hrun
  split at hrun
  next hcomma =>
    cases hrun
    exact ⟨[.sym .comma], .inr ⟨[], [], blank_nil, blank_nil, rfl⟩, stand_one (Tok.eq_of_is hcomma) rfl⟩
  next =>
    cases hrun
    exact ⟨[], .inl blank_nil, .nil i⟩

theorem mem_of_stand {t : Tok} {ts : List Tok} (h : Stand p i ts j) (ht : t ∈ ts) : t ∈ p.toks.map (·.1) := by
  have hmem : t ∈ p.after i := by
    rw [stand_after h]
    exact List.mem_append_left _ ht
  unfold Input.after at hmem
  rw [List.map_drop] at hmem
  exact List.mem_of_mem_drop hmem

theorem mem_of_peeked {t : Tok} (h : p.tokAt i = t) (ht : t.is .newline = false) : t ∈ p.toks.map (·.1) :=
  mem_of_stand (stand_one h ht) (List.mem_cons_self ..)

variable [External]

theorem taken_word {what : String} : Yields (p.word what) i fun w j => ∃ t, t.word? = some w ∧ Stand p i [t] j := by
  unfold Input.word
  refine Yields.peek fun t ht => ?_
  dsimp only
  split
  next w hw =>
    have hw : t.word? = some w := hw
    refine Yields.advance (yields_pure ⟨t, hw, stand_one ht ?_⟩)
    cases t with
    | sym c =>
      cases c with
      | newline => cases hw
      | _ => rfl
    | _ => rfl
  next => exact yields_fail _

theorem taken_eat {s : Sym} {what : String} (hs : (Tok.sym s).is .newline = false) :
    Yields (p.eat s what) i fun _ j => Stand p i [.sym s] j := by
  intro _ j hrun
  obtain ⟨htok, rfl⟩ := eat_ok hrun
  exact stand_one htok hs

end

/-- Tokens from `i` up to `j` render the expression, and the next one does not call it. -/
def Got (p : Input) (i : Nat) (e : Expr) (j : Nat) : Prop :=
  ∃ ts c, Stand p i ts j ∧ Renders (.expr e) ts ∧ Place.run ⟨0, .operand⟩ ts = some ⟨0, .more c⟩ ∧
    (c = true → (p.tokAt j).is .lParen = false)

theorem Got.item {p : Input} {i j k l : Nat} {e : Expr} {es : List Expr} {c : Sym} (he : Got p i e j)
    (hk : ∃ sep, Separator sep ∧ Stand p j sep k) (hl : ∃ ts, Stand p k (ts ++ [.sym c]) l ∧ Renders (.items es) ts) :
    ∃ ts, Stand p i (ts ++ [.sym c]) l ∧ Renders (.items (e :: es)) ts := by
  obtain ⟨ts, -, hts, hr, -, -⟩ := he
  obtain ⟨sep, hsep, hk⟩ := hk
  obtain ⟨us, hus, hr'⟩ := hl
  refine ⟨ts ++ (sep ++ us), ?_, .item hr hsep hr'⟩
  rw [List.append_assoc, List.append_assoc]
  exact hts.append (hk.append hus)

theorem Got.keyed {p : Input} {i j k l m n : Nat} {key : String} {e : Expr} {fs : List (String × Expr)} {c : Sym} (he : Got p k e l)
    (hj : ∃ t : Tok, t.word? = some key ∧ Stand p i [t] j) (hk : Stand p j [.sym .colon] k)
    (hm : ∃ sep, Separator sep ∧ Stand p l sep m) (hn : ∃ ts, Stand p m (ts ++ [.sym c]) n ∧ Renders (.fields fs) ts) :
    ∃ ts, Stand p i (ts ++ [.sym c]) n ∧ Renders (.fields ((key, e) :: fs)) ts := by
  obtain ⟨t, ht, hj⟩ := hj
  obtain ⟨ts, -, hts, hr, -, -⟩ := he
  obtain ⟨sep, hsep, hm⟩ := hm
  obtain ⟨us, hus, hr'⟩ := hn
  refine ⟨_, ?_, .keyed ht hr hsep hr'⟩
  have hall := hj.append (hk.append (hts.append (hm.append hus)))
  simpa using hall

def NoPostfix (p : Input) (j : Nat) : Prop :=
  (p.tokAt j).is .dot = false ∧ (p.tokAt j).is .qDot = false ∧ (p.tokAt j).is .lBrack = false

def NoOperator (p : Input) (bp j : Nat) : Prop := ∀ op b, binaryOp (p.tokAt j) = some (op, b) → b ≤ bp

section
variable {p : Input} {i j k l : Nat} {e : Expr}

theorem got_single {t : Tok} (ht : p.tokAt i = t) (hn : t.is .newline = false) (hr : Renders (.expr e) [t])
    (hrun : Place.run ⟨0, .operand⟩ [t] = some ⟨0, .more false⟩) : Got p i e (i + 1) :=
  ⟨[t], false, stand_one ht hn, hr, hrun, fun h => nomatch h⟩

theorem got_between {a b : Sym} {ts : List Tok}
    (hab : (a, b) ∈ [(Sym.lParen, Sym.rParen), (.lBrack, .rBrack), (.lBrace, .rBrace)])
    (hstand : Stand p i (.sym a :: (ts ++ [.sym b])) j) (hr : Renders (.expr e) (.sym a :: (ts ++ [.sym b])))
    (hinside : Inside ts) : Got p i e j := by
  refine ⟨_, false, hstand, hr, Place.run_between hab ?_ hinside, fun h => nomatch h⟩
  simp only [List.mem_cons, List.not_mem_nil, or_false, Prod.mk.injEq] at hab
  rcases hab with ⟨rfl, -⟩ | ⟨rfl, -⟩ | ⟨rfl, -⟩ <;> rfl

theorem Got.unary {op : UnOp} (htok : p.tokAt i = .sym op.sym) (h : Got p (i + 1) e j) : Got p i (.unary op e) j := by
  obtain ⟨ts, c, hstand, hr, hrun, hcall⟩ := h
  refine ⟨.sym op.sym :: ts, c, stand_cons htok (by cases op <;> rfl) hstand, .unary op hr, ?_, hcall⟩
  rw [Place.run_cons (show Place.step ⟨0, .operand⟩ (.sym op.sym) = some ⟨0, .operand⟩ by cases op <;> rfl)]
  exact hrun

theorem Got.field {safe : Bool} {name : String} {t : Tok} (h : Got p i e j)
    (htok : p.tokAt j = .sym (if safe then .qDot else .dot)) (hname : t.word? = some name)
    (hstand : Stand p (j + 1) [t] k) : Got p i (.field e name safe) k := by
  obtain ⟨ts, c, hts, hr, hrun, -⟩ := h
  refine ⟨_, false, hts.append (stand_cons htok (by cases safe <;> rfl) hstand), .field safe hr hname, ?_, fun h => nomatch h⟩
  rw [Place.run_append hrun, Place.run_cons (show Place.step ⟨0, .more c⟩ (.sym (if safe then .qDot else .dot)) =
    some ⟨0, .field⟩ by cases safe <;> rfl)]
  rfl

theorem Got.brackets {e' : Expr} {us : List Tok} (h : Got p i e j) (htok : p.tokAt j = .sym .lBrack)
    (hstand : Stand p (j + 1) (us ++ [.sym .rBrack]) k) (hinside : Inside us)
    (hr : ∀ ts, Renders (.expr e) ts → Renders (.expr e') (ts ++ .sym .lBrack :: (us ++ [.sym .rBrack]))) :
    Got p i e' k := by
  obtain ⟨ts, c, hts, hbase, hrun, -⟩ := h
  refine ⟨_, false, hts.append (stand_cons htok rfl hstand), hr ts hbase, ?_, fun h => nomatch h⟩
  rw [Place.run_append hrun]
  exact Place.run_between (by decide) rfl hinside

theorem Got.bin {op : BinOp} {bp : Nat} {t : Tok} {r : Expr} (h : Got p i e j) (htok : p.tokAt j = t)
    (hop : binaryOp t = some (op, bp)) (h' : Got p (j + 1) r k) : Got p i (.bin op e r) k := by
  obtain ⟨ts, c, hts, hr, hrun, -⟩ := h
  obtain ⟨us, c', hus, hr', hrun', hcall'⟩ := h'
  have ht : t = .sym op.sym := by
    cases t with
    | sym s =>
      have hop : bindingPower s = some (op, bp) := hop
      unfold bindingPower at hop
      split at hop <;> cases hop <;> rfl
    | _ => cases hop
  subst ht
  refine ⟨_, c', hts.append (stand_cons htok (by cases op <;> rfl) hus), .bin op hr hr', ?_, hcall'⟩
  rw [Place.run_append hrun, Place.run_cons (show Place.step ⟨0, .more c⟩ (.sym op.sym) = some ⟨0, .operand⟩ by
    cases op <;> cases c <;> rfl)]
  exact hrun'

end

theorem step_none {p : Input} {j : Nat} {c : Bool} (hnext : NoPostfix p j) (hop : NoOperator p 0 j)
    (hcall : c = true → (p.tokAt j).is .lParen = false) : Place.step ⟨0, .more c⟩ (p.tokAt j) = none := by
  have hnone : binaryOp (p.tokAt j) = none := by
    cases h : binaryOp (p.tokAt j) with
    | none => rfl
    | some o =>
      have hle := hop o.1 o.2 h
      have hpos : ∀ t o, binaryOp t = some o → 0 < o.2 := by
        intro t o ho
        cases t with
        | sym s =>
          have ho : bindingPower s = some o := ho
          unfold bindingPower at ho
          split at ho <;> cases ho <;> decide
        | _ => cases ho
      exact absurd (hpos _ o h) (by omega)
  obtain ⟨hdot, hqDot, hbrack⟩ := hnext
  show Place.outer (.more c) (p.tokAt j) = none
  cases htok : p.tokAt j with
  | sym s =>
    rw [htok] at hdot hqDot hbrack hnone hcall
    cases s <;> first | (exact absurd hdot (by decide)) | (exact absurd hqDot (by decide)) | (exact absurd hbrack (by decide)) | (cases hnone; done) | (cases c <;> first | rfl | (exact absurd (hcall rfl) (by decide)))
  | _ => cases c <;> rfl

section
variable [External]

mutual

theorem got_expr : ∀ fuel (p : Input) bp i, toksSingle p.toks = true →
    Yields (expr fuel p bp) i fun e j => Got p i e j ∧ NoPostfix p j ∧ NoOperator p bp j
  | 0, _, _, _, _ => by
    intro a j hrun
    cases hrun
  | fuel + 1, p, bp, i, hp => by
    unfold expr
    refine (got_primary fuel p i hp).bind fun e j he => ?_
    refine (got_postfixes fuel p e i j hp he).bind fun e k he => ?_
    exact got_operators fuel p bp e i k hp he.1 he.2

theorem got_primary : ∀ fuel (p : Input) i, toksSingle p.toks = true → Yields (primary fuel p) i fun e j => Got p i e j
  | 0, _, _, _ => by
    intro a j hrun
    cases hrun
  | fuel + 1, p, i, hp => by
    unfold primary
    refine Yields.next fun t ht => ?_
    split
    · exact yields_pure (got_single ht rfl (.num _) rfl)
    · exact yields_pure (got_single ht rfl (.str _) rfl)
    · exact yields_pure (got_single ht rfl (.bool true) rfl)
    · exact yields_pure (got_single ht rfl (.bool false) rfl)
    · exact yields_pure (got_single ht rfl .null rfl)
    next parts =>
      have hparts : partsSingle parts = true := by
        have hmem : Tok.fStr parts ∈ p.toks.map (·.1) := mem_of_peeked ht rfl
        exact toksSingle_iff.mp hp _ hmem
      refine (got_holes fuel p.src parts (i + 1) hparts).bind fun ps j hj => yields_pure ?_
      obtain ⟨rfl, hr⟩ := hj
      exact got_single ht rfl (.fString hr) rfl
    · refine (got_expr fuel p 9 (i + 1) hp).bind fun e j he => yields_pure ?_
      exact Got.unary ht he.1
    · refine (got_expr fuel p 9 (i + 1) hp).bind fun e j he => yields_pure ?_
      exact Got.unary ht he.1
    · exact yields_pure (got_single ht rfl (.directive (by decide)) rfl)
    · exact yields_pure (got_single ht rfl (.directive (by decide)) rfl)
    · exact yields_pure (got_single ht rfl (.directive (by decide)) rfl)
    · exact yields_pure (got_single ht rfl (.directive (by decide)) rfl)
    · refine (got_invokeArgs fuel p (i + 1) hp).bind fun r j hr => yields_pure ?_
      obtain ⟨ts, hts, hr⟩ := hr
      have hplaces := hr.places
      refine ⟨_, false, stand_cons ht rfl hts, .invoke hr, ?_, fun h => nomatch h⟩
      exact (Place.run_cons rfl).trans hplaces.2
    · refine (got_expr fuel p 0 (i + 1) hp).bind fun e j he => ?_
      obtain ⟨⟨ts, c, hts, hr, -, -⟩, -⟩ := he
      refine (taken_eat rfl).bind fun _ k hk => yields_pure ?_
      exact got_between (by decide) (stand_cons ht rfl (hts.append hk)) (.parens hr) hr.places.1
    · refine taken_newlines.bind fun _ j hj => ?_
      obtain ⟨blank, hblank, hj⟩ := hj
      refine (got_exprItems fuel p j hp).bind fun es k hk => yields_pure ?_
      obtain ⟨ts, hts, hr⟩ := hk
      have hrender := Renders.array hblank hr
      rw [← List.append_assoc] at hrender
      refine got_between (by decide) (stand_cons ht rfl ?_) hrender ((Inside.blank hblank).append hr.places)
      rw [List.append_assoc]
      exact hj.append hts
    · refine taken_newlines.bind fun _ j hj => ?_
      obtain ⟨blank, hblank, hj⟩ := hj
      refine (got_exprFields fuel p j hp).bind fun es k hk => yields_pure ?_
      obtain ⟨ts, hts, hr⟩ := hk
      have hrender := Renders.doc hblank hr
      rw [← List.append_assoc] at hrender
      refine got_between (by decide) (stand_cons ht rfl ?_) hrender ((Inside.blank hblank).append hr.places)
      rw [List.append_assoc]
      exact hj.append hts
    next name =>
      refine Yields.accept (fun hparen => ?_) fun hparen => ?_
      · refine (got_callArgs fuel p (i + 2) hp).bind fun es k hk => yields_pure ?_
        obtain ⟨ts, hts, hr⟩ := hk
        refine ⟨_, false, stand_cons ht rfl (stand_cons hparen rfl hts), .call name hr, ?_, fun h => nomatch h⟩
        exact (Place.run_cons rfl).trans (Place.run_between (by decide) rfl hr.places)
      · exact yields_pure ⟨_, true, stand_one ht rfl, .var name, rfl, fun _ => hparen⟩
    · exact yields_fail _

theorem got_holes : ∀ fuel (src : Bytes) (parts : List FPart) i, partsSingle parts = true →
    Yields (holes fuel src parts) i fun ps j => j = i ∧ Renders (.parts ps parts) []
  | 0, _, _, _, _ => by
    intro a j hrun
    cases hrun
  | fuel + 1, src, parts, i, hparts => by
    unfold holes
    split
    · exact yields_pure ⟨rfl, .noParts⟩
    next s ps =>
      refine (got_holes fuel src ps i hparts).bind fun qs j hj => yields_pure ?_
      exact ⟨hj.1, .litPart s hj.2⟩
    next toks ps =>
      have hparts : (Place.single ⟨0, .operand⟩ (toks.map (·.1)) && toksSingle toks && partsSingle ps) = true := hparts
      rw [Bool.and_eq_true, Bool.and_eq_true] at hparts
      obtain ⟨⟨hone, htoks⟩, hparts⟩ := hparts
      intro qs j hrun
      dsimp only at hrun
      split at hrun
      next e k hexpr =>
        obtain ⟨⟨ts, c, hts, hr, hplace, hcall⟩, hnext, hop⟩ := got_expr fuel ⟨toks, src⟩ 0 0 htoks e k hexpr
        have hsplit : toks.map (·.1) = ts ++ Input.after ⟨toks, src⟩ k := stand_after hts
        have hblank : Blank (Input.after ⟨toks, src⟩ k) := by
          rw [hsplit] at hone
          refine Place.blank_of_single hplace (fun t ht => ?_) hone
          obtain ⟨rest, hrest⟩ := List.head?_eq_some_iff.mp ht
          rw [← (after_cons hrest).1]
          exact step_none hnext hop hcall
        obtain ⟨rs, l, hrest, hlast⟩ := of_parse_bind hrun
        obtain ⟨hl, hrender⟩ := got_holes fuel src ps i hparts rs l hrest
        cases hlast
        exact ⟨hl, .hole hr hblank hsplit hrender⟩
      next => cases hrun

theorem got_exprItems : ∀ fuel (p : Input) i, toksSingle p.toks = true →
    Yields (exprItems fuel p) i fun es j => ∃ ts, Stand p i (ts ++ [.sym .rBrack]) j ∧ Renders (.items es) ts
  | 0, _, _, _ => by
    intro a j hrun
    cases hrun
  | fuel + 1, p, i, hp => by
    unfold exprItems
    refine Yields.accept (fun hclose => yields_pure ⟨[], stand_one hclose rfl, .noItems⟩) fun _ => ?_
    refine (got_expr fuel p 0 i hp).bind fun e j he => taken_itemEnd.bind fun _ k hk => ?_
    exact (got_exprItems fuel p k hp).bind fun es l hl => yields_pure (he.1.item hk hl)

theorem got_exprFields : ∀ fuel (p : Input) i, toksSingle p.toks = true →
    Yields (exprFields fuel p) i fun fs j => ∃ ts, Stand p i (ts ++ [.sym .rBrace]) j ∧ Renders (.fields fs) ts
  | 0, _, _, _ => by
    intro a j hrun
    cases hrun
  | fuel + 1, p, i, hp => by
    unfold exprFields
    refine Yields.accept (fun hclose => yields_pure ⟨[], stand_one hclose rfl, .noFields⟩) fun _ => ?_
    refine taken_word.bind fun key j hj => (taken_eat rfl).bind fun _ k hk => ?_
    refine (got_expr fuel p 0 k hp).bind fun e l he => taken_itemEnd.bind fun _ m hm => ?_
    exact (got_exprFields fuel p m hp).bind fun fs n hn => yields_pure (he.1.keyed hj hk hm hn)

theorem got_callArgs : ∀ fuel (p : Input) i, toksSingle p.toks = true →
    Yields (callArgs fuel p) i fun es j => ∃ ts, Stand p i (ts ++ [.sym .rParen]) j ∧ Renders (.items es) ts
  | 0, _, _, _ => by
    intro a j hrun
    cases hrun
  | fuel + 1, p, i, hp => by
    unfold callArgs
    refine Yields.accept (fun hclose => yields_pure ⟨[], stand_one hclose rfl, .noItems⟩) fun _ => ?_
    refine (got_expr fuel p 0 i hp).bind fun e j he => taken_comma.bind fun _ k hk => ?_
    exact (got_callArgs fuel p k hp).bind fun es l hl => yields_pure (he.1.item hk hl)

theorem got_namedArgs : ∀ fuel (p : Input) i, toksSingle p.toks = true →
    Yields (namedArgs fuel p) i fun fs j => ∃ ts, Stand p i (ts ++ [.sym .rParen]) j ∧ Renders (.fields fs) ts
  | 0, _, _, _ => by
    intro a j hrun
    cases hrun
  | fuel + 1, p, i, hp => by
    unfold namedArgs
    refine Yields.accept (fun hclose => yields_pure ⟨[], stand_one hclose rfl, .noFields⟩) fun _ => ?_
    refine taken_word.bind fun key j hj => (taken_eat rfl).bind fun _ k hk => ?_
    refine (got_expr fuel p 0 k hp).bind fun e l he => taken_comma.bind fun _ m hm => ?_
    exact (got_namedArgs fuel p m hp).bind fun fs n hn => yields_pure (he.1.keyed hj hk hm hn)

theorem got_invokeArgs : ∀ fuel (p : Input) i, toksSingle p.toks = true →
    Yields (invokeArgs fuel p) i fun r j => ∃ ts, Stand p i ts j ∧ Renders (.service r.1 r.2) ts
  | 0, _, _, _ => by
    intro a j hrun
    cases hrun
  | fuel + 1, p, i, hp => by
    unfold invokeArgs
    refine Yields.next fun t ht => ?_
    split
    next n =>
      refine Yields.sees (Yields.peek2 ?_)
      split
      next svc hcolon hsvc =>
        refine Yields.advance (Yields.advance ?_)
        show Yields (p.eat .lParen "(" >>= fun _ => namedArgs fuel p >>= fun args => pure (n ++ ":" ++ svc, args)) _ _
        refine (taken_eat rfl).bind fun _ k hk => (got_namedArgs fuel p k hp).bind fun args l hl => yields_pure ?_
        obtain ⟨ts, hts, hr⟩ := hl
        have hservice : Stand p (i + 1 + 1) (.ident svc :: .sym .lParen :: (ts ++ [.sym .rParen])) l := .cons hsvc (hk.append hts)
        exact ⟨_, stand_cons ht rfl (stand_cons (Tok.eq_of_is hcolon) rfl hservice), .qualified n svc hr⟩
      next =>
        show Yields (p.eat .lParen "(" >>= fun _ => namedArgs fuel p >>= fun args => pure (n, args)) _ _
        refine (taken_eat rfl).bind fun _ k hk => (got_namedArgs fuel p k hp).bind fun args l hl => yields_pure ?_
        obtain ⟨ts, hts, hr⟩ := hl
        exact ⟨_, stand_cons ht rfl (hk.append hts), .service n hr⟩
    · exact yields_fail _

theorem got_postfixes : ∀ fuel (p : Input) lhs i j, toksSingle p.toks = true → Got p i lhs j →
    Yields (postfixes fuel p lhs) j fun e k => Got p i e k ∧ NoPostfix p k
  | 0, _, _, _, _, _, _ => by
    intro a j hrun
    cases hrun
  | fuel + 1, p, lhs, i, j, hp, hlhs => by
    unfold postfixes
    refine Yields.peek fun t ht => ?_
    split
    · refine Yields.advance (taken_word.bind fun name k hk => ?_)
      obtain ⟨t, hname, hk⟩ := hk
      exact got_postfixes fuel p _ i k hp (@Got.field p i j k lhs false name t hlhs ht hname hk)
    · refine Yields.advance (taken_word.bind fun name k hk => ?_)
      obtain ⟨t, hname, hk⟩ := hk
      exact got_postfixes fuel p _ i k hp (@Got.field p i j k lhs true name t hlhs ht hname hk)
    · refine Yields.advance (Yields.accept (fun hclose => ?_) fun _ => ?_)
      · refine got_postfixes fuel p _ i _ hp (hlhs.brackets ht (stand_one hclose rfl) inside_nil fun ts hts => ?_)
        exact .projection hts
      · refine (got_expr fuel p 0 (j + 1) hp).bind fun c k hc => (taken_eat rfl).bind fun _ l hl => ?_
        obtain ⟨⟨us, -, hus, hr, -, -⟩, -⟩ := hc
        refine got_postfixes fuel p _ i l hp (hlhs.brackets ht (hus.append hl) hr.places.1 fun ts hts => ?_)
        split
        · exact .filter hts hr
        · exact .index hts hr
    next hdot hqDot hbrack =>
      have hother : ∀ s, (t = .sym s → False) → (p.tokAt j).is s = false := by
        intro s hs
        rw [ht]
        cases his : t.is s with
        | false => rfl
        | true => exact (hs (Tok.eq_of_is his)).elim
      exact yields_pure ⟨hlhs, hother _ hdot, hother _ hqDot, hother _ hbrack⟩

theorem got_operators : ∀ fuel (p : Input) bp lhs i j, toksSingle p.toks = true → Got p i lhs j → NoPostfix p j →
    Yields (operators fuel p bp lhs) j fun e k => Got p i e k ∧ NoPostfix p k ∧ NoOperator p bp k
  | 0, _, _, _, _, _, _, _, _ => by
    intro a j hrun
    cases hrun
  | fuel + 1, p, bp, lhs, i, j, hp, hlhs, hnext => by
    unfold operators
    refine Yields.peek fun t ht => ?_
    split
    next hop =>
      refine yields_pure ⟨hlhs, hnext, fun op b hb => ?_⟩
      rw [ht, hop] at hb
      cases hb
    next op b hop =>
      split
      next hle =>
        refine yields_pure ⟨hlhs, hnext, fun op' b' hb => ?_⟩
        rw [ht, hop] at hb
        cases hb
        exact hle
      next =>
        refine Yields.advance ((got_expr fuel p b (j + 1) hp).bind fun r k hr => ?_)
        exact got_operators fuel p bp _ i k hp (hlhs.bin ht hop hr.1) hr.2.1

end

end

theorem Scan.Still.rest {s r : Scan} {ts us : List Tok} (h : s.Still ts) (hrun : s.run (ts ++ us) = some r) :
    s.run us = some r := by
  rwa [Scan.run_append h] at hrun

theorem Scan.rest_calm {d : Nat} {elses : List Bool} {r : Scan} {t : Tok} {ts : List Tok} (ht : t.calm = true)
    (hrun : Scan.run ⟨d, false, elses⟩ (t :: ts) = some r) : Scan.run ⟨d, false, elses⟩ ts = some r := by
  rwa [Scan.run_cons (Scan.step_calm ht)] at hrun

/-- If a scan passes over the tokens, no clause in them comes after an `else`, and they render the phrase. -/
def Kept (φ : Phrase) (ts : List Tok) : Prop :=
  ∀ elses r, Scan.run ⟨0, false, elses⟩ ts = some r → Renders φ ts

theorem Kept.first {φ : Phrase} {ts us : List Tok} {elses : List Bool} {r : Scan} (h : Kept φ ts)
    (hstill : Renders φ ts → ∀ elses, Scan.Still ⟨0, false, elses⟩ ts)
    (hrun : Scan.run ⟨0, false, elses⟩ (ts ++ us) = some r) : Renders φ ts ∧ Scan.run ⟨0, false, elses⟩ us = some r := by
  obtain ⟨s', hts, -⟩ := Scan.of_run_append hrun
  have hr := h elses s' hts
  exact ⟨hr, (hstill hr elses).rest hrun⟩

theorem Kept.block {ss : List Stmt} {ts us : List Tok} {elses : List Bool} {r : Scan} (h : Kept (.block ss) ts)
    (hrun : Scan.run ⟨0, false, elses⟩ (ts ++ us) = some r) :
    Renders (.block ss) ts ∧ Scan.run ⟨0, false, elses⟩ us = some r :=
  h.first (fun hr elses => (hr.scans upward_true elses).still) hrun

theorem Kept.guarded {e : Expr} {ss : List Stmt} {cs ts us : List Tok} {elses : List Bool} {r : Scan} (h : Kept (.block ss) ts)
    (he : Renders (.expr e) cs) (hrun : Scan.run ⟨0, false, elses⟩ (cs ++ .sym .colon :: (ts ++ us)) = some r) :
    Renders (.block ss) ts ∧ Scan.run ⟨0, false, elses⟩ us = some r := by
  have hrest := (he.scans upward_true 0 elses).still.rest hrun
  exact h.block (Scan.rest_calm rfl hrest)

section
variable [External] {p : Input}

theorem kept_pathTail (fuel i : Nat) :
    Yields (pathTail p fuel) i fun ws j => ∃ ts, Stand p i ts j ∧ Renders (.path ws) ts := by
  induction fuel generalizing i with
  | zero =>
    intro a j hrun
    cases hrun
  | succ fuel ih =>
    unfold pathTail
    refine Yields.accept (fun hdot => ?_) fun _ => yields_pure ⟨[], .nil i, .noPath⟩
    refine taken_word.bind fun w j hj => (ih j).bind fun ws k hk => yields_pure ?_
    obtain ⟨t, ht, hj⟩ := hj
    obtain ⟨ts, hts, hr⟩ := hk
    exact ⟨_, stand_cons hdot rfl (hj.append hts), .step ht hr⟩

theorem kept_condition (hp : toksSingle p.toks = true) (fuel i : Nat) :
    Yields (condition p fuel) i fun r j => ∃ ts, Stand p i (ts ++ [.sym .colon]) j ∧ Renders (.expr r.1) ts := by
  unfold condition
  refine Yields.pos ((got_expr fuel p 0 i hp).bind fun c j hc => Yields.pos ((taken_eat rfl).bind fun _ k hk => yields_pure ?_))
  obtain ⟨⟨ts, -, hts, hr, -, -⟩, -⟩ := hc
  exact ⟨ts, hts.append hk, hr⟩

mutual

theorem kept_stmt (hp : toksSingle p.toks = true) : ∀ fuel i,
    Yields (stmt p fuel) i fun s j => ∃ ts, Stand p i ts j ∧ Kept (.stmt s) ts
  | 0, _ => by
    intro a j hrun
    cases hrun
  | fuel + 1, i => by
    unfold stmt
    refine Yields.peek fun t ht => ?_
    split
    · refine Yields.advance ((got_expr fuel p 0 (i + 1) hp).bind fun s j hs => (taken_eat rfl).bind fun _ k hk => ?_)
      refine (got_expr fuel p 0 k hp).bind fun e l he => yields_pure ?_
      obtain ⟨⟨ts, -, hts, hr, -, -⟩, -⟩ := hs
      obtain ⟨⟨us, -, hus, hr', -, -⟩, -⟩ := he
      exact ⟨_, stand_cons ht rfl (hts.append (hk.append hus)), fun _ _ _ => .emit hr hr'⟩
    · refine Yields.advance ((got_expr fuel p 0 (i + 1) hp).bind fun s j hs => (taken_eat rfl).bind fun _ k hk => ?_)
      refine (got_expr fuel p 0 k hp).bind fun e l he => yields_pure ?_
      obtain ⟨⟨ts, -, hts, hr, -, -⟩, -⟩ := hs
      obtain ⟨⟨us, -, hus, hr', -, -⟩, -⟩ := he
      exact ⟨_, stand_cons ht rfl (hts.append (hk.append hus)), fun _ _ _ => .respond hr hr'⟩
    · refine Yields.advance ((got_invokeArgs fuel p (i + 1) hp).bind fun r j hr => yields_pure ?_)
      obtain ⟨ts, hts, hr⟩ := hr
      exact ⟨_, stand_cons ht rfl hts, fun _ _ _ => .invokeMerge hr⟩
    · refine Yields.advance ((kept_condition hp fuel (i + 1)).bind fun c j hc => ?_)
      refine (kept_block hp fuel j).bind fun body k hbody => ?_
      obtain ⟨ts, hts, hr⟩ := hc
      obtain ⟨us, hus, hbody⟩ := hbody
      intro s l hrest
      obtain ⟨vs, hvs, hclauses⟩ := kept_ifRest hp fuel [(c.1, c.2, body)] none k s l hrest
      refine ⟨.sym .if :: ((ts ++ [.sym .colon]) ++ (us ++ vs)), stand_cons ht rfl (hts.append (hus.append hvs)), ?_⟩
      intro elses r hrun
      rw [Scan.run_cons (show Scan.step ⟨0, false, elses⟩ (.sym .if) = some ⟨0, false, false :: elses⟩ from rfl),
        List.append_assoc] at hrun
      obtain ⟨hblock, hrun⟩ := hbody.guarded hr hrun
      have hrender := hclauses _ elses r (.first c.2 hr hblock) hrun
      simpa using hrender
    · refine Yields.advance (Yields.next fun t' ht' => ?_)
      split
      next x =>
        refine (taken_eat rfl).bind fun _ j hj => (got_expr fuel p 0 j hp).bind fun iter k hk => ?_
        refine (taken_eat rfl).bind fun _ l hl => (kept_block hp fuel l).bind fun body m hbody => ?_
        refine (taken_eat rfl).bind fun _ n hn => yields_pure ?_
        obtain ⟨⟨ts, -, hts, hr, -, -⟩, -⟩ := hk
        obtain ⟨us, hus, hbody⟩ := hbody
        refine ⟨.sym .for :: .ident x :: ([.sym .in] ++ (ts ++ ([.sym .colon] ++ (us ++ [.sym .end])))),
          stand_cons ht rfl (stand_cons ht' rfl (hj.append (hts.append (hl.append (hus.append hn))))), ?_⟩
        intro elses r hrun
        rw [Scan.run_cons (show Scan.step ⟨0, false, elses⟩ (.sym .for) = some ⟨0, false, false :: elses⟩ from rfl)] at hrun
        exact .loop x hr (hbody.guarded hr (Scan.rest_calm rfl (Scan.rest_calm rfl hrun))).1
      · exact yields_fail _
    next first =>
      refine Yields.advance ((kept_pathTail fuel (i + 1)).bind fun tail j htail => (taken_eat rfl).bind fun _ k hk => ?_)
      obtain ⟨ts, hts, hr⟩ := htail
      refine Yields.accept (fun hinvoke => ?_) fun _ => ?_
      · refine (got_invokeArgs fuel p (k + 1) hp).bind fun r l hl => yields_pure ?_
        obtain ⟨us, hus, hr'⟩ := hl
        refine ⟨_, stand_cons ht rfl (hts.append (hk.append (stand_cons hinvoke rfl hus))), fun _ _ _ => ?_⟩
        exact .assign first hr (.invoke hr')
      · refine (got_expr fuel p 0 k hp).bind fun e l he => yields_pure ?_
        obtain ⟨⟨us, -, hus, hr', -, -⟩, -⟩ := he
        exact ⟨_, stand_cons ht rfl (hts.append (hk.append hus)), fun _ _ _ => .assign first hr hr'⟩
    · exact yields_fail _

theorem kept_ifRest (hp : toksSingle p.toks = true) : ∀ fuel (arms : List (Expr × Span × List Stmt)) (o : Option (List Stmt)) i,
    Yields (ifRest p fuel arms o) i fun s j => ∃ ts, Stand p i ts j ∧ ∀ head elses r, Renders (.clauses arms o) head →
      Scan.run ⟨0, false, o.isSome :: elses⟩ ts = some r → Renders (.stmt s) (head ++ ts)
  | 0, _, _, _ => by
    intro a j hrun
    cases hrun
  | fuel + 1, arms, o, i => by
    unfold ifRest
    refine Yields.peek fun t ht => ?_
    split
    · refine Yields.advance ((kept_condition hp fuel (i + 1)).bind fun c j hc => ?_)
      refine (kept_block hp fuel j).bind fun body k hbody => ?_
      obtain ⟨ts, hts, hr⟩ := hc
      obtain ⟨us, hus, hbody⟩ := hbody
      intro s l hrest
      obtain ⟨vs, hvs, hclauses⟩ := kept_ifRest hp fuel (arms ++ [(c.1, c.2, body)]) o k s l hrest
      refine ⟨.sym .elif :: ((ts ++ [.sym .colon]) ++ (us ++ vs)), stand_cons ht rfl (hts.append (hus.append hvs)), ?_⟩
      intro head elses r hhead hrun
      cases o with
      | some body' =>
        obtain ⟨s', hstep, -⟩ := Scan.of_run_cons hrun
        cases hstep
      | none =>
        rw [Option.isSome_none, Scan.run_cons (show Scan.step ⟨0, false, false :: elses⟩ (.sym .elif) = some ⟨0, false, false :: elses⟩ from rfl),
          List.append_assoc] at hrun
        obtain ⟨hblock, hrun⟩ := hbody.guarded hr hrun
        have hrender := hclauses _ elses r (.elif c.2 hhead hr hblock) hrun
        simpa using hrender
    · refine Yields.advance ((taken_eat rfl).bind fun _ j hj => (kept_block hp fuel j).bind fun body k hbody => ?_)
      obtain ⟨us, hus, hbody⟩ := hbody
      intro s l hrest
      obtain ⟨vs, hvs, hclauses⟩ := kept_ifRest hp fuel arms (some body) k s l hrest
      refine ⟨.sym .else :: ([.sym .colon] ++ (us ++ vs)), stand_cons ht rfl (hj.append (hus.append hvs)), ?_⟩
      intro head elses r hhead hrun
      cases o with
      | some body' =>
        obtain ⟨s', hstep, -⟩ := Scan.of_run_cons hrun
        cases hstep
      | none =>
        rw [Option.isSome_none, Scan.run_cons (show Scan.step ⟨0, false, false :: elses⟩ (.sym .else) = some ⟨0, false, true :: elses⟩ from rfl)] at hrun
        obtain ⟨hblock, hrun⟩ := hbody.block (Scan.rest_calm rfl hrun)
        have hrender := hclauses _ elses r (.orElse hhead hblock) hrun
        simpa using hrender
    · refine Yields.advance (yields_pure ⟨_, stand_one ht rfl, fun head elses r hhead _ => .ite hhead⟩)
    · exact yields_fail _

theorem kept_block (hp : toksSingle p.toks = true) : ∀ fuel i,
    Yields (block p fuel) i fun ss j => ∃ ts, Stand p i ts j ∧ Kept (.block ss) ts
  | 0, _ => by
    intro a j hrun
    cases hrun
  | fuel + 1, i => by
    unfold block
    refine taken_newlines.bind fun _ j hj => ?_
    obtain ⟨blank, hblank, hj⟩ := hj
    refine Yields.sees (Yields.sees (Yields.sees ?_))
    split
    · exact yields_pure ⟨blank, hj, fun _ _ _ => .noStmts hblank⟩
    · refine Yields.atEnd fun last => ?_
      split
      · exact yields_fail _
      · refine (kept_stmt hp fuel j).bind fun s k hs => (kept_block hp fuel k).bind fun ss l hss => yields_pure ?_
        obtain ⟨ts, hts, hs⟩ := hs
        obtain ⟨us, hus, hss⟩ := hss
        refine ⟨blank ++ (ts ++ us), hj.append (hts.append hus), ?_⟩
        intro elses r hrun
        obtain ⟨hstmt, hrun⟩ := hs.first (fun h elses => (h.scans upward_true elses).still) ((Scan.stays_blank hblank).still.rest hrun)
        exact .next hblank hstmt (hss elses r hrun)

end

end

end Vejas.Vjs
