import Vejas.Vjs.Slices

/-! Where the errors of the parser are located. The parser reads its tokens only, and the text
serves to turn the offset of a token into a line. The offset is one of a token of the text, which is
a boundary of it, or one of a token of an f-string hole, which counts from the start of the hole. -/

namespace Vejas.Vjs
open Json Rust

def OffsetOf (toks : List Spanned) (pos : Nat) : Prop := ∃ i, pos = Input.posAt ⟨toks, []⟩ i

inductive HoleOffset : List Spanned → Nat → Prop
  | own {toks hole : List Spanned} {parts : List FPart} {off pos : Nat} (htok : (.fStr parts, off) ∈ toks)
      (hpart : .expr hole ∈ parts) (h : OffsetOf hole pos) : HoleOffset toks pos
  | nested {toks hole : List Spanned} {parts : List FPart} {off pos : Nat} (htok : (.fStr parts, off) ∈ toks)
      (hpart : .expr hole ∈ parts) (h : HoleOffset hole pos) : HoleOffset toks pos

/-- A text in which the tokens can be located: their own offsets are boundaries of it. -/
def Fits (toks : List Spanned) (s : Bytes) : Prop :=
  Whole s ∧ ∀ pos, OffsetOf toks pos → isCharBoundary s (min pos s.length) = true

/-- At `i` the computation does the same in every text of `good`, up to the text an error is located
in, and its errors are at offsets in `place`. -/
def Located {α : Type} (good : Bytes → Prop) (place : Nat → Prop) (m : Bytes → Parse α) (i : Nat) : Prop :=
  (∃ r, ∀ s, good s → m s i = .ok r) ∨
    (∃ pos msg, place pos ∧ ∀ s, good s → m s i = .error (errAt pos s msg)) ∨
    ∀ s, good s → m s i = .error .outOfFuel

section
variable {α β : Type} {good : Bytes → Prop} {place place' : Nat → Prop} {i : Nat} {toks : List Spanned}

theorem Located.bind {m : Bytes → Parse α} {f : Bytes → α → Parse β} (h : Located good place m i)
    (hf : ∀ a j, Located good place (fun s => f s a) j) :
    Located good place (fun s => m s >>= f s) i := by
  have hstop : ∀ {s : Bytes} {e : Fault}, m s i = .error e → (m s >>= f s) i = .error e := by
    intro s e he
    show StateT.bind (m s) (f s) i = _
    unfold StateT.bind
    rw [he]
    rfl
  have hgo : ∀ {s : Bytes} {a : α} {j : Nat}, m s i = .ok (a, j) → (m s >>= f s) i = f s a j := by
    intro s a j ha
    show StateT.bind (m s) (f s) i = _
    unfold StateT.bind
    rw [ha]
    rfl
  rcases h with ⟨⟨a, j⟩, hok⟩ | ⟨pos, msg, hpos, herr⟩ | hfuel
  · rcases hf a j with ⟨r, hr⟩ | ⟨pos, msg, hpos, herr⟩ | hfuel
    · exact .inl ⟨r, fun s hs => (hgo (hok s hs)).trans (hr s hs)⟩
    · exact .inr (.inl ⟨pos, msg, hpos, fun s hs => (hgo (hok s hs)).trans (herr s hs)⟩)
    · exact .inr (.inr fun s hs => (hgo (hok s hs)).trans (hfuel s hs))
  · exact .inr (.inl ⟨pos, msg, hpos, fun s hs => hstop (herr s hs)⟩)
  · exact .inr (.inr fun s hs => hstop (hfuel s hs))

theorem Located.mono {m : Bytes → Parse α} (h : Located good place m i) (hp : ∀ pos, place pos → place' pos) :
    Located good place' m i := by
  rcases h with h | ⟨pos, msg, hpos, herr⟩ | h
  · exact .inl h
  · exact .inr (.inl ⟨pos, msg, hp pos hpos, herr⟩)
  · exact .inr (.inr h)

theorem Located.ite {c : Prop} [Decidable c] {m m' : Bytes → Parse α} (h : Located good place m i)
    (h' : Located good place m' i) : Located good place (fun s => if c then m s else m' s) i := by
  by_cases hc : c
  · simp only [if_pos hc]
    exact h
  · simp only [if_neg hc]
    exact h'

theorem located_pure (a : α) : Located good place (fun _ => pure a) i := .inl ⟨(a, i), fun _ _ => rfl⟩

theorem located_throw : Located good place (fun _ => (throw .outOfFuel : Parse α)) i :=
  .inr (.inr fun _ _ => rfl)

theorem located_peek : Located good place (fun s => Input.peek ⟨toks, s⟩) i :=
  .inl ⟨(Input.tokAt ⟨toks, []⟩ i, i), fun _ _ => rfl⟩

theorem located_peek2 : Located good place (fun s => Input.peek2 ⟨toks, s⟩) i :=
  .inl ⟨(Input.tokAt? ⟨toks, []⟩ (i + 1), i), fun _ _ => rfl⟩

theorem located_pos : Located good place (fun s => Input.pos ⟨toks, s⟩) i :=
  .inl ⟨(Input.posAt ⟨toks, []⟩ i, i), fun _ _ => rfl⟩

theorem located_next : Located good place (fun s => Input.next ⟨toks, s⟩) i :=
  .inl ⟨(Input.tokAt ⟨toks, []⟩ i, i + 1), fun _ _ => rfl⟩

theorem located_advance : Located good place (fun _ => Input.advance) i := .inl ⟨((), i + 1), fun _ _ => rfl⟩

theorem located_skipNewlines : Located good place (fun s => Input.skipNewlines ⟨toks, s⟩) i :=
  .inl ⟨((), i + ((toks.drop i).takeWhile fun t => t.1.is .newline).length), fun _ _ => rfl⟩

theorem located_atEnd : Located good place (fun s => Input.atEnd ⟨toks, s⟩) i :=
  .inl ⟨(decide (toks.length - 1 ≤ i), i), fun _ _ => rfl⟩

theorem located_sees (t : Sym) : Located good place (fun s => Input.sees ⟨toks, s⟩ t) i :=
  .inl ⟨((Input.tokAt ⟨toks, []⟩ i).is t, i), fun _ _ => rfl⟩

theorem located_accept (t : Sym) : Located good place (fun s => Input.accept ⟨toks, s⟩ t) i := by
  have hrun : ∀ s, Input.accept ⟨toks, s⟩ t i =
      if (Input.tokAt ⟨toks, []⟩ i).is t then .ok (true, i + 1) else .ok (false, i) := fun _ => rfl
  left
  cases h : (Input.tokAt ⟨toks, []⟩ i).is t with
  | true =>
    refine ⟨(true, i + 1), fun s _ => (hrun s).trans ?_⟩
    rw [h]
    rfl
  | false =>
    refine ⟨(false, i), fun s _ => (hrun s).trans ?_⟩
    rw [h]
    rfl

variable (hplace : ∀ pos, OffsetOf toks pos → place pos)
include hplace

theorem located_fail (msg : String) : Located good place (fun s => (Input.fail ⟨toks, s⟩ msg : Parse α)) i :=
  .inr (.inl ⟨_, msg, hplace _ ⟨i, rfl⟩, fun _ _ => rfl⟩)

variable [External]

theorem located_eat (t : Sym) (what : String) : Located good place (fun s => Input.eat ⟨toks, s⟩ t what) i := by
  unfold Input.eat
  exact located_peek.bind fun u j => located_advance.ite (located_fail hplace _)

theorem located_word (what : String) : Located good place (fun s => Input.word ⟨toks, s⟩ what) i := by
  unfold Input.word
  refine located_peek.bind fun t j => ?_
  cases t with
  | ident s => exact located_advance.bind fun _ _ => located_pure _
  | str s => exact located_advance.bind fun _ _ => located_pure _
  | sym s =>
    -- a keyword is a name here, any other symbol is not
    cases s <;> first
      | exact located_advance.bind fun _ _ => located_pure _
      | exact located_fail hplace _
  | _ => exact located_fail hplace _

end

theorem located_itemEnd {good : Bytes → Prop} {place : Nat → Prop} {i : Nat} {toks : List Spanned} :
    Located good place (fun s => Input.itemEnd ⟨toks, s⟩) i := by
  unfold Input.itemEnd
  refine located_skipNewlines.bind fun _ _ => (located_accept _).bind fun _ _ => ?_
  exact located_skipNewlines.ite (located_pure ())

section
variable [External] {good : Bytes → Prop} {place : Nat → Prop} {toks : List Spanned}

mutual

theorem located_literalValue (h : ∀ pos, OffsetOf toks pos → place pos) :
    ∀ fuel i, Located good place (fun s => literalValue ⟨toks, s⟩ fuel) i
  | 0, i => located_throw
  | fuel + 1, i => by
    unfold literalValue
    refine located_next.bind fun t j => ?_
    cases t with
    | str s => exact located_pos.bind fun _ _ => located_pure _
    | num n => exact located_pos.bind fun _ _ => located_pure _
    | sym s =>
      cases s with
      | «true» => exact located_pos.bind fun _ _ => located_pure _
      | «false» => exact located_pos.bind fun _ _ => located_pure _
      | null => exact located_pos.bind fun _ _ => located_pure _
      | minus =>
        refine located_next.bind fun u k => ?_
        cases u with
        | num n => exact located_pos.bind fun _ _ => located_pure _
        | _ => exact located_fail h _
      | lBrack =>
        refine located_skipNewlines.bind fun _ j => (located_literalItems h fuel j).bind fun _ _ => ?_
        exact located_pos.bind fun _ _ => located_pure _
      | lBrace =>
        refine located_skipNewlines.bind fun _ j => (located_literalFields h fuel [] [] j).bind fun _ _ => ?_
        exact located_pos.bind fun _ _ => located_pure _
      | _ => exact located_fail h _
    | _ => exact located_fail h _

theorem located_literalItems (h : ∀ pos, OffsetOf toks pos → place pos) :
    ∀ fuel i, Located good place (fun s => literalItems ⟨toks, s⟩ fuel) i
  | 0, i => located_throw
  | fuel + 1, i => by
    unfold literalItems
    refine (located_accept _).bind fun _ j => (located_pure _).ite ?_
    refine (located_literalValue h fuel j).bind fun _ _ => located_itemEnd.bind fun _ k => ?_
    exact (located_literalItems h fuel k).bind fun _ _ => located_pure _

theorem located_literalFields (h : ∀ pos, OffsetOf toks pos → place pos) : ∀ fuel map spans i,
    Located good place (fun s => literalFields ⟨toks, s⟩ fuel map spans) i
  | 0, map, spans, i => located_throw
  | fuel + 1, map, spans, i => by
    unfold literalFields
    refine (located_accept _).bind fun _ j => (located_pure _).ite ?_
    refine (located_word h _).bind fun key _ => (located_eat h _ _).bind fun _ _ => ?_
    refine located_pos.bind fun _ j => (located_literalValue h fuel j).bind fun _ _ => ?_
    exact located_pos.bind fun _ _ => located_itemEnd.bind fun _ k => located_literalFields h fuel _ _ k

end

theorem located_tryLiteral (fuel i : Nat) :
    Located (Fits toks) place (fun s => tryLiteral ⟨toks, s⟩ fuel) i := by
  have hlit : Located (Fits toks) (OffsetOf toks) (fun s => literalValue ⟨toks, s⟩ fuel) i :=
    located_literalValue (fun _ h => h) fuel i
  unfold tryLiteral
  rcases hlit with ⟨⟨l, j⟩, hok⟩ | ⟨pos, msg, hpos, herr⟩ | hfuel
  · left
    refine ⟨if (Input.tokAt ⟨toks, []⟩ j).is .newline then (some l, j) else (none, i), fun s hs => ?_⟩
    dsimp only at hok ⊢
    rw [hok s hs]
    show (if (Input.tokAt ⟨toks, []⟩ j).is .newline then _ else _) = _
    cases (Input.tokAt ⟨toks, []⟩ j).is .newline <;> rfl
  · left
    refine ⟨(none, i), fun s hs => ?_⟩
    dsimp only at herr ⊢
    rw [herr s hs]
    cases hf : errAt pos s msg with
    | err _ => rfl
    | panic =>
      rw [errAt_panic_iff hs.1, hs.2 pos hpos] at hf
      cases hf
    | outOfFuel => exact absurd hf (errAt_ne _ _ _)
  · right
    right
    intro s hs
    dsimp only at hfuel ⊢
    rw [hfuel s hs]

omit [External] in
theorem mem_of_tokAt {i : Nat} {parts : List FPart} (h : Input.tokAt ⟨toks, []⟩ i = .fStr parts) :
    ∃ off, (Tok.fStr parts, off) ∈ toks := by
  unfold Input.tokAt Input.tokAt? at h
  cases hi : toks[i]? with
  | none =>
    rw [hi] at h
    cases h
  | some sp =>
    rw [hi] at h
    obtain ⟨t, off⟩ := sp
    cases h
    exact ⟨off, List.mem_of_getElem? hi⟩

omit [External] in
theorem Located.next {β : Type} {f : Bytes → Tok → Parse β} {i : Nat}
    (h : ∀ t, Input.tokAt ⟨toks, []⟩ i = t → Located good place (fun s => f s t) (i + 1)) :
    Located good place (fun s => Input.next ⟨toks, s⟩ >>= f s) i := h _ rfl

def Covers (place : Nat → Prop) (toks : List Spanned) : Prop :=
  (∀ pos, OffsetOf toks pos → place pos) ∧ ∀ pos, HoleOffset toks pos → place pos

omit [External] in
theorem Covers.hole {parts : List FPart} {hole : List Spanned} {off : Nat} (h : Covers place toks)
    (htok : (.fStr parts, off) ∈ toks) (hpart : .expr hole ∈ parts) : Covers place hole :=
  ⟨fun pos hpos => h.2 pos (.own htok hpart hpos), fun pos hpos => h.2 pos (.nested htok hpart hpos)⟩

mutual

theorem located_expr : ∀ fuel {toks : List Spanned}, Covers place toks → ∀ bp i,
    Located good place (fun s => expr fuel ⟨toks, s⟩ bp) i
  | 0, _, _, bp, i => located_throw
  | fuel + 1, toks, h, bp, i => by
    unfold expr
    refine (located_primary fuel h i).bind fun lhs j => (located_postfixes fuel h lhs j).bind fun lhs' k => ?_
    exact located_operators fuel h bp lhs' k

theorem located_primary : ∀ fuel {toks : List Spanned}, Covers place toks → ∀ i,
    Located good place (fun s => primary fuel ⟨toks, s⟩) i
  | 0, _, _, i => located_throw
  | fuel + 1, toks, h, i => by
    unfold primary
    refine Located.next fun t ht => ?_
    cases t with
    | num n => exact located_pure _
    | str s => exact located_pure _
    | fStr parts =>
      obtain ⟨off, htok⟩ := mem_of_tokAt ht
      refine (located_holes fuel parts (fun hole hpart => h.hole htok hpart) _).bind fun _ _ => ?_
      exact located_pure _
    | ident name =>
      refine (located_accept _).bind fun _ j => Located.ite ?_ (located_pure _)
      exact (located_callArgs fuel h j).bind fun _ _ => located_pure _
    | sym s =>
      cases s with
      | «true» => exact located_pure _
      | «false» => exact located_pure _
      | null => exact located_pure _
      | source => exact located_pure _
      | tool => exact located_pure _
      | driver => exact located_pure _
      | api => exact located_pure _
      | not => exact (located_expr fuel h 9 _).bind fun _ _ => located_pure _
      | minus => exact (located_expr fuel h 9 _).bind fun _ _ => located_pure _
      | invoke => exact (located_invokeArgs fuel h _).bind fun _ _ => located_pure _
      | lParen =>
        refine (located_expr fuel h 0 _).bind fun _ _ => (located_eat h.1 _ _).bind fun _ _ => ?_
        exact located_pure _
      | lBrack =>
        refine located_skipNewlines.bind fun _ j => (located_exprItems fuel h j).bind fun _ _ => ?_
        exact located_pure _
      | lBrace =>
        refine located_skipNewlines.bind fun _ j => (located_exprFields fuel h j).bind fun _ _ => ?_
        exact located_pure _
      | _ => exact located_fail h.1 _

theorem located_holes : ∀ fuel (parts : List FPart), (∀ hole, .expr hole ∈ parts → Covers place hole) →
    ∀ i, Located good place (fun s => holes fuel s parts) i
  | 0, parts, h, i => located_throw
  | fuel + 1, [], h, i => located_pure _
  | fuel + 1, .lit s :: ps, h, i => by
    unfold holes
    have hps := located_holes fuel ps (fun hole hpart => h hole (List.mem_cons_of_mem _ hpart)) i
    exact hps.bind fun _ _ => located_pure _
  | fuel + 1, .expr hole :: ps, h, i => by
    have hhole : Located good place (fun s => expr fuel ⟨hole, s⟩ 0) 0 :=
      located_expr fuel (h hole (List.mem_cons_self ..)) 0 0
    have hrest : ∀ e, Located good place (fun s => (do
        pure (.expr e :: (← holes fuel s ps)) : Parse (List FStringPart))) i := fun e =>
      (located_holes fuel ps (fun hole hpart => h hole (List.mem_cons_of_mem _ hpart)) i).bind fun _ _ =>
        located_pure _
    unfold holes
    rcases hhole with ⟨⟨e, j⟩, hok⟩ | ⟨pos, msg, hpos, herr⟩ | hfuel
    · have heq : ∀ {s : Bytes} {r}, good s → (do
          pure (.expr e :: (← holes fuel s ps)) : Parse (List FStringPart)) i = r →
          (match expr fuel ⟨hole, s⟩ 0 0 with
            | .ok (e, _) => (do pure (.expr e :: (← holes fuel s ps)) : Parse (List FStringPart)) i
            | .error f => .error f) = r := by
        intro s r hs hr
        dsimp only at hok
        rw [hok s hs]
        exact hr
      rcases hrest e with ⟨r, hr⟩ | ⟨pos, msg, hpos, herr⟩ | hfuel
      · exact .inl ⟨r, fun s hs => heq hs (hr s hs)⟩
      · exact .inr (.inl ⟨pos, msg, hpos, fun s hs => heq hs (herr s hs)⟩)
      · exact .inr (.inr fun s hs => heq hs (hfuel s hs))
    · refine .inr (.inl ⟨pos, msg, hpos, fun s hs => ?_⟩)
      dsimp only at herr ⊢
      rw [herr s hs]
    · refine .inr (.inr fun s hs => ?_)
      dsimp only at hfuel ⊢
      rw [hfuel s hs]

theorem located_exprItems : ∀ fuel {toks : List Spanned}, Covers place toks → ∀ i,
    Located good place (fun s => exprItems fuel ⟨toks, s⟩) i
  | 0, _, _, i => located_throw
  | fuel + 1, toks, h, i => by
    unfold exprItems
    refine (located_accept _).bind fun _ j => (located_pure _).ite ?_
    refine (located_expr fuel h 0 j).bind fun _ _ => located_itemEnd.bind fun _ k => ?_
    exact (located_exprItems fuel h k).bind fun _ _ => located_pure _

theorem located_exprFields : ∀ fuel {toks : List Spanned}, Covers place toks → ∀ i,
    Located good place (fun s => exprFields fuel ⟨toks, s⟩) i
  | 0, _, _, i => located_throw
  | fuel + 1, toks, h, i => by
    unfold exprFields
    refine (located_accept _).bind fun _ j => (located_pure _).ite ?_
    refine (located_word h.1 _).bind fun key _ => (located_eat h.1 _ _).bind fun _ k => ?_
    refine (located_expr fuel h 0 k).bind fun _ _ => located_itemEnd.bind fun _ l => ?_
    exact (located_exprFields fuel h l).bind fun _ _ => located_pure _

theorem located_callArgs : ∀ fuel {toks : List Spanned}, Covers place toks → ∀ i,
    Located good place (fun s => callArgs fuel ⟨toks, s⟩) i
  | 0, _, _, i => located_throw
  | fuel + 1, toks, h, i => by
    unfold callArgs
    refine (located_accept _).bind fun _ j => (located_pure _).ite ?_
    refine (located_expr fuel h 0 j).bind fun _ _ => (located_accept _).bind fun _ k => ?_
    exact (located_callArgs fuel h k).bind fun _ _ => located_pure _

theorem located_namedArgs : ∀ fuel {toks : List Spanned}, Covers place toks → ∀ i,
    Located good place (fun s => namedArgs fuel ⟨toks, s⟩) i
  | 0, _, _, i => located_throw
  | fuel + 1, toks, h, i => by
    unfold namedArgs
    refine (located_accept _).bind fun _ j => (located_pure _).ite ?_
    refine (located_word h.1 _).bind fun key _ => (located_eat h.1 _ _).bind fun _ k => ?_
    refine (located_expr fuel h 0 k).bind fun _ _ => (located_accept _).bind fun _ l => ?_
    exact (located_namedArgs fuel h l).bind fun _ _ => located_pure _

theorem located_invokeArgs : ∀ fuel {toks : List Spanned}, Covers place toks → ∀ i,
    Located good place (fun s => invokeArgs fuel ⟨toks, s⟩) i
  | 0, _, _, i => located_throw
  | fuel + 1, toks, h, i => by
    unfold invokeArgs
    refine located_next.bind fun t j => ?_
    cases t with
    | ident n =>
      have hargs : ∀ (name : String) j, Located good place (fun s => (do
          Input.eat ⟨toks, s⟩ .lParen "("
          let args ← namedArgs fuel ⟨toks, s⟩
          pure (name, args) : Parse (String × List (String × Expr)))) j := fun name j =>
        (located_eat h.1 _ _).bind fun _ k => (located_namedArgs fuel h k).bind fun _ _ => located_pure _
      refine (located_sees _).bind fun b j => located_peek2.bind fun t k => ?_
      cases b with
      | false => exact hargs _ _
      | true =>
        cases t with
        | none => exact hargs _ _
        | some t =>
          cases t with
          | ident svc => exact located_advance.bind fun _ _ => located_advance.bind fun _ l => hargs _ l
          | _ => exact hargs _ _
    | _ => exact located_fail h.1 _

theorem located_postfixes : ∀ fuel {toks : List Spanned}, Covers place toks → ∀ lhs i,
    Located good place (fun s => postfixes fuel ⟨toks, s⟩ lhs) i
  | 0, _, _, lhs, i => located_throw
  | fuel + 1, toks, h, lhs, i => by
    unfold postfixes
    refine located_peek.bind fun t j => ?_
    cases t with
    | sym s =>
      cases s with
      | dot =>
        refine located_advance.bind fun _ _ => (located_word h.1 _).bind fun f k => ?_
        exact located_postfixes fuel h _ k
      | qDot =>
        refine located_advance.bind fun _ _ => (located_word h.1 _).bind fun f k => ?_
        exact located_postfixes fuel h _ k
      | lBrack =>
        refine located_advance.bind fun _ _ => (located_accept _).bind fun _ k => ?_
        refine Located.ite (located_postfixes fuel h _ k) ?_
        refine (located_expr fuel h 0 k).bind fun inner _ => (located_eat h.1 _ _).bind fun _ l => ?_
        exact located_postfixes fuel h _ l
      | _ => exact located_pure _
    | _ => exact located_pure _

theorem located_operators : ∀ fuel {toks : List Spanned}, Covers place toks → ∀ bp lhs i,
    Located good place (fun s => operators fuel ⟨toks, s⟩ bp lhs) i
  | 0, _, _, bp, lhs, i => located_throw
  | fuel + 1, toks, h, bp, lhs, i => by
    unfold operators
    refine located_peek.bind fun t j => ?_
    cases binaryOp t with
    | none => exact located_pure _
    | some r =>
      obtain ⟨op, q⟩ := r
      refine (located_pure _).ite (located_advance.bind fun _ k => ?_)
      exact (located_expr fuel h q k).bind fun _ l => located_operators fuel h bp _ l

end

theorem located_pathTail (h : Covers place toks) : ∀ fuel i,
    Located good place (fun s => pathTail ⟨toks, s⟩ fuel) i
  | 0, i => located_throw
  | fuel + 1, i => by
    unfold pathTail
    refine (located_accept _).bind fun _ j => Located.ite ?_ (located_pure _)
    refine (located_word h.1 _).bind fun _ k => (located_pathTail h fuel k).bind fun _ _ => ?_
    exact located_pure _

theorem located_condition (h : Covers place toks) (fuel i : Nat) :
    Located good place (fun s => condition ⟨toks, s⟩ fuel) i := by
  unfold condition
  refine located_pos.bind fun _ j => (located_expr fuel h 0 j).bind fun _ _ => ?_
  exact located_pos.bind fun _ _ => (located_eat h.1 _ _).bind fun _ _ => located_pure _

mutual

theorem located_stmt (h : Covers place toks) : ∀ fuel i,
    Located good place (fun s => stmt ⟨toks, s⟩ fuel) i
  | 0, i => located_throw
  | fuel + 1, i => by
    unfold stmt
    refine located_peek.bind fun t j => ?_
    cases t with
    | ident first =>
      refine located_advance.bind fun _ k => (located_pathTail h fuel k).bind fun _ _ => ?_
      refine (located_eat h.1 _ _).bind fun _ _ => (located_accept _).bind fun _ l => Located.ite ?_ ?_
      · exact (located_invokeArgs fuel h l).bind fun _ _ => located_pure _
      · exact (located_expr fuel h 0 l).bind fun _ _ => located_pure _
    | sym s =>
      cases s with
      | emit =>
        refine located_advance.bind fun _ k => (located_expr fuel h 0 k).bind fun _ _ => ?_
        refine (located_eat h.1 _ _).bind fun _ l => (located_expr fuel h 0 l).bind fun _ _ => ?_
        exact located_pure _
      | respond =>
        refine located_advance.bind fun _ k => (located_expr fuel h 0 k).bind fun _ _ => ?_
        refine (located_eat h.1 _ _).bind fun _ l => (located_expr fuel h 0 l).bind fun _ _ => ?_
        exact located_pure _
      | invoke =>
        exact located_advance.bind fun _ k => (located_invokeArgs fuel h k).bind fun _ _ => located_pure _
      | «if» =>
        refine located_advance.bind fun _ k => (located_condition h fuel k).bind fun c l => ?_
        exact (located_block h fuel l).bind fun _ m => located_ifRest h fuel _ _ m
      | «for» =>
        refine located_advance.bind fun _ k => located_next.bind fun u l => ?_
        cases u with
        | ident x =>
          refine (located_eat h.1 _ _).bind fun _ m => (located_expr fuel h 0 m).bind fun _ _ => ?_
          refine (located_eat h.1 _ _).bind fun _ m => (located_block h fuel m).bind fun _ _ => ?_
          exact (located_eat h.1 _ _).bind fun _ _ => located_pure _
        | _ => exact located_fail h.1 _
      | _ => exact located_fail h.1 _
    | _ => exact located_fail h.1 _

theorem located_ifRest (h : Covers place toks) : ∀ fuel arms otherwise i,
    Located good place (fun s => ifRest ⟨toks, s⟩ fuel arms otherwise) i
  | 0, arms, otherwise, i => located_throw
  | fuel + 1, arms, otherwise, i => by
    unfold ifRest
    refine located_peek.bind fun t j => ?_
    cases t with
    | sym s =>
      cases s with
      | elif =>
        refine located_advance.bind fun _ k => (located_condition h fuel k).bind fun c l => ?_
        exact (located_block h fuel l).bind fun _ m => located_ifRest h fuel _ _ m
      | «else» =>
        refine located_advance.bind fun _ _ => (located_eat h.1 _ _).bind fun _ l => ?_
        exact (located_block h fuel l).bind fun _ m => located_ifRest h fuel _ _ m
      | «end» => exact located_advance.bind fun _ _ => located_pure _
      | _ => exact located_fail h.1 _
    | _ => exact located_fail h.1 _

theorem located_block (h : Covers place toks) : ∀ fuel i,
    Located good place (fun s => block ⟨toks, s⟩ fuel) i
  | 0, i => located_throw
  | fuel + 1, i => by
    unfold block
    refine located_skipNewlines.bind fun _ _ => (located_sees _).bind fun _ _ => ?_
    refine (located_sees _).bind fun _ _ => (located_sees _).bind fun _ _ => (located_pure _).ite ?_
    refine located_atEnd.bind fun _ j => (located_fail h.1 _).ite ?_
    exact (located_stmt h fuel j).bind fun _ k => (located_block h fuel k).bind fun _ _ => located_pure _

end

omit [External] in
theorem located_directive (h : Covers place toks) (msg : String) (i : Nat) :
    Located good place (fun s => directive ⟨toks, s⟩ msg) i := by
  unfold directive
  refine located_advance.bind fun _ _ => located_next.bind fun t _ => ?_
  cases t with
  | str s => exact located_pure _
  | _ => exact located_fail h.1 _

section
variable {p : Input} {fuel i j : Nat} {name : String}

theorem surfaceEntry_other (h : ∀ name, p.tokAt i = .ident name → p.tokAt? (i + 1) = some (.sym .eq) →
    isConstantName name = false) : surfaceEntry p fuel i = .ok (none, i) := by
  unfold surfaceEntry
  split
  next name ht hu =>
    rw [if_neg (by rw [h name ht hu]; nofun)]
  · rfl

variable (ht : p.tokAt i = .ident name) (hu : p.tokAt? (i + 1) = some (.sym .eq))
  (hname : isConstantName name = true)
include ht hu hname

theorem surfaceEntry_none (h : tryLiteral p fuel (i + 2) = .ok (none, j)) :
    surfaceEntry p fuel i = .ok (none, i) := by
  unfold surfaceEntry
  rw [ht, hu]
  dsimp only
  rw [if_pos hname, h]

theorem surfaceEntry_some {l : Literal} (h : tryLiteral p fuel (i + 2) = .ok (some l, j)) :
    surfaceEntry p fuel i = .ok (some ⟨name, l.1, (p.posAt (i + 2), l.2.2), l.2.1⟩, j) := by
  unfold surfaceEntry
  rw [ht, hu]
  dsimp only
  rw [if_pos hname, h]

theorem surfaceEntry_error {f : Fault} (h : tryLiteral p fuel (i + 2) = .error f) :
    surfaceEntry p fuel i = .error f := by
  unfold surfaceEntry
  rw [ht, hu]
  dsimp only
  rw [if_pos hname, h]

end

theorem located_surfaceEntry (fuel i : Nat) :
    Located (Fits toks) place (fun s => surfaceEntry ⟨toks, s⟩ fuel) i := by
  by_cases hentry : ∃ name, Input.tokAt ⟨toks, []⟩ i = .ident name ∧
      Input.tokAt? ⟨toks, []⟩ (i + 1) = some (.sym .eq) ∧ isConstantName name = true
  · obtain ⟨name, ht, hu, hname⟩ := hentry
    have htry : Located (Fits toks) place (fun s => tryLiteral ⟨toks, s⟩ fuel) (i + 2) :=
      located_tryLiteral fuel (i + 2)
    rcases htry with ⟨⟨l, j⟩, hok⟩ | ⟨pos, msg, hpos, herr⟩ | hfuel
    · cases l with
      | none => exact .inl ⟨(none, i), fun s hs => surfaceEntry_none (p := ⟨toks, s⟩) ht hu hname (hok s hs)⟩
      | some l =>
        exact .inl ⟨(some ⟨name, l.1, (Input.posAt ⟨toks, []⟩ (i + 2), l.2.2), l.2.1⟩, j),
          fun s hs => surfaceEntry_some (p := ⟨toks, s⟩) ht hu hname (hok s hs)⟩
    · exact .inr (.inl ⟨pos, msg, hpos, fun s hs => surfaceEntry_error (p := ⟨toks, s⟩) ht hu hname (herr s hs)⟩)
    · exact .inr (.inr fun s hs => surfaceEntry_error (p := ⟨toks, s⟩) ht hu hname (hfuel s hs))
  · refine .inl ⟨(none, i), fun s _ => surfaceEntry_other fun name ht hu => ?_⟩
    cases hname : isConstantName name with
    | false => rfl
    | true => exact absurd ⟨name, ht, hu, hname⟩ hentry

theorem located_topLevel (h : Covers place toks) (d : Draft) (fuel i : Nat) :
    Located (Fits toks) place (fun s => topLevel ⟨toks, s⟩ d fuel) i := by
  unfold topLevel
  refine located_peek.bind fun t j => ?_
  cases t with
  | sym s =>
    cases s with
    | source => exact (located_directive h _ j).bind fun _ _ => located_pure _
    | tool => exact (located_directive h _ j).bind fun _ _ => located_pure _
    | driver => exact (located_directive h _ j).bind fun _ _ => located_pure _
    | api => exact (located_directive h _ j).bind fun _ _ => located_pure _
    | _ =>
      refine (located_surfaceEntry fuel j).bind fun e k => ?_
      cases e with
      | some e => exact located_pure _
      | none => exact (located_stmt h fuel k).bind fun _ _ => located_pure _
  | _ =>
    refine (located_surfaceEntry fuel j).bind fun e k => ?_
    cases e with
    | some e => exact located_pure _
    | none => exact (located_stmt h fuel k).bind fun _ _ => located_pure _

theorem located_items (h : Covers place toks) : ∀ fuel d i,
    Located (Fits toks) place (fun s => items ⟨toks, s⟩ fuel d) i
  | 0, d, i => located_throw
  | fuel + 1, d, i => by
    unfold items
    refine located_skipNewlines.bind fun _ _ => located_atEnd.bind fun _ j => (located_pure _).ite ?_
    exact (located_topLevel h d fuel j).bind fun _ k => located_items h fuel _ k

end

section
variable [External]

omit [External] in
theorem mem_of_offset {toks : List Spanned} {pos : Nat} (h : OffsetOf toks pos) (hne : toks ≠ []) :
    ∃ t ∈ toks, t.2 = pos := by
  obtain ⟨i, rfl⟩ := h
  unfold Input.posAt
  dsimp only
  cases hi : toks[i]? with
  | some t => exact ⟨t, List.mem_of_getElem? hi, rfl⟩
  | none =>
    rw [List.getLast?_eq_some_getLast hne]
    exact ⟨_, List.getLast_mem hne, rfl⟩

theorem fits_of_lex {src : Bytes} {toks : List Spanned} (hw : Whole src) (h : lex src = .ok toks) :
    Fits toks src := by
  refine ⟨hw, fun pos hpos => boundary_min ?_⟩
  obtain ⟨ts, rfl, path⟩ := lex_iff.mp h
  obtain ⟨t, ht, rfl⟩ := mem_of_offset hpos (by simp)
  rcases List.mem_append.mp ht with ht | ht
  · refine path.boundaries (by simp) (Nat.zero_le _) ?_ t ht
    rwa [List.append_nil]
  · rw [List.mem_singleton] at ht
    subst ht
    exact (boundary_iff List.drop_length (Nat.le_refl _)).mpr nofun

/-- The parser rejects the tokens at this offset, whatever text they are located in. -/
def Rejects (fuel : Nat) (toks : List Spanned) (pos : Nat) : Prop :=
  ∃ msg, ∀ s, Fits toks s → items ⟨toks, s⟩ fuel {} 0 = .error (errAt pos s msg)

def Returns (src : String) : Prop := (∃ prog, parse src = .ok prog) ∨ ∃ msg, parse src = .error (.err msg)

theorem returns_iff {src : String} : Returns src ↔ parse src ≠ .error .panic := by
  constructor
  · rintro (⟨prog, h⟩ | ⟨msg, h⟩) hp
    · rw [h] at hp
      cases hp
    · rw [h] at hp
      cases hp
  · intro hne
    cases h : parse src with
    | ok prog => exact .inl ⟨prog, h⟩
    | error f =>
      cases f with
      | err msg => exact .inr ⟨msg, h⟩
      | panic => exact absurd h hne
      | outOfFuel => exact absurd h (parse_ne_outOfFuel src)

theorem parse_panics_iff {src : String} {toks : List Spanned} (h : lex (bytesOf src) = .ok toks) :
    parse src = .error .panic ↔
      items ⟨toks, bytesOf src⟩ (parseFuel (bytesOf src)) {} 0 = .error .panic := by
  unfold parse parseBytes
  rw [h]
  show (items ⟨toks, bytesOf src⟩ (parseFuel (bytesOf src)) {} 0 >>= _) = _ ↔ _
  cases items ⟨toks, bytesOf src⟩ (parseFuel (bytesOf src)) {} 0 with
  | ok r => exact ⟨nofun, nofun⟩
  | error f =>
    constructor
    · intro h
      cases h
      rfl
    · intro h
      cases h
      rfl

theorem returns_of_boundaries {src : String} (hs : ¬ Splits (bytesOf src))
    (hholes : ∀ toks pos, lex (bytesOf src) = .ok toks → HoleOffset toks pos →
      Rejects (parseFuel (bytesOf src)) toks pos →
      isCharBoundary (bytesOf src) (min pos (bytesOf src).length) = true) : Returns src := by
  have hw := whole_bytesOf src
  rw [returns_iff]
  intro hp
  cases hlex : lex (bytesOf src) with
  | error f =>
    unfold parse parseBytes at hp
    rw [hlex] at hp
    cases hp
    exact hs ((lex_panics_iff hw).mp hlex)
  | ok toks =>
    have hfits := fits_of_lex hw hlex
    rw [parse_panics_iff hlex] at hp
    have hcovers : Covers (fun pos => OffsetOf toks pos ∨ HoleOffset toks pos) toks :=
      ⟨fun _ => .inl, fun _ => .inr⟩
    rcases located_items hcovers (parseFuel (bytesOf src)) {} 0 with ⟨r, hok⟩ | ⟨pos, msg, hpos, herr⟩ | hfuel
    · dsimp only at hok
      rw [hok _ hfits] at hp
      cases hp
    · dsimp only at herr
      have hb : isCharBoundary (bytesOf src) (min pos (bytesOf src).length) = true := by
        rcases hpos with hown | hhole
        · exact hfits.2 pos hown
        · exact hholes toks pos hlex hhole ⟨msg, herr⟩
      rw [herr _ hfits, Except.error.injEq, errAt_panic_iff hw, hb] at hp
      cases hp
    · dsimp only at hfuel
      rw [hfuel _ hfits] at hp
      cases hp

theorem returns_of_ascii {src : String} (h : ∀ b ∈ bytesOf src, b.toNat < 128) : Returns src := by
  refine returns_of_boundaries ?_ fun toks pos _ _ _ => boundary_of_ascii h (Nat.min_le_right _ _)
  intro hs
  obtain ⟨b, hb, hhigh⟩ := hs.high
  have := h b hb
  omega

/-- The front end answers unless the lexer cuts a character in two, or an error inside a hole is
located, by an offset that counts from the hole, inside a character of the whole text. -/
theorem parse_returns_iff (src : String) :
    Returns src ↔ ¬ Splits (bytesOf src) ∧ ∀ toks pos, lex (bytesOf src) = .ok toks → HoleOffset toks pos →
      Rejects (parseFuel (bytesOf src)) toks pos →
      isCharBoundary (bytesOf src) (min pos (bytesOf src).length) = true := by
  have hw := whole_bytesOf src
  constructor
  · intro h
    have hne := returns_iff.mp h
    constructor
    · intro hs
      apply hne
      unfold parse parseBytes
      rw [(lex_panics_iff hw).mpr hs]
      rfl
    · rintro toks pos hlex - ⟨msg, hrej⟩
      rw [Ne, parse_panics_iff hlex, hrej _ (fits_of_lex hw hlex), Except.error.injEq, errAt_panic_iff hw] at hne
      simpa using hne
  · rintro ⟨hs, hholes⟩
    exact returns_of_boundaries hs hholes

end

/-- An operator before a character of two bytes, and a hole that is rejected at an offset where the
text has the second byte of one. -/
theorem parse_panics_inside_characters :
    ¬ @Returns ascii "(é" ∧ ¬ @Returns ascii "# é\nx = f\"\x7bx +\x7d\"" := by
  have hlook : @parse ascii "(é" = .error .panic := rfl
  have hhole : @parse ascii "# é\nx = f\"\x7bx +\x7d\"" = .error .panic := rfl
  exact ⟨fun h => (@returns_iff ascii _).mp h hlook, fun h => (@returns_iff ascii _).mp h hhole⟩

end Vejas.Vjs
