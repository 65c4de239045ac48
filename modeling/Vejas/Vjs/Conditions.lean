import Vejas.Vjs.Eval
import Vejas.Vjs.Sentences
import Vejas.Vjs.Slices
import Vejas.Vjs.Yields

/-! The conditions of a parsed program. What stands in them comes from tokens of the text, so a
sentence of the rules view that shows all of its guard has one meaning. -/

namespace Vejas.Vjs
open Json Rust

def Named (toks : List Spanned) : Prop :=
  ∀ n pos, (.ident n, pos) ∈ toks → NameText n.toList ∧ n.toList ∉ literalWords

theorem named_of_tokAt {p : Input} {i : Nat} {n : String} (h : Named p.toks) (ht : p.tokAt i = .ident n) :
    NameText n.toList ∧ n.toList ∉ literalWords := by
  unfold Input.tokAt Input.tokAt? at ht
  cases hi : p.toks[i]? with
  | none =>
    rw [hi] at ht
    cases ht
  | some x =>
    rw [hi] at ht
    have hx : x = (.ident n, x.2) := Prod.ext ht rfl
    exact h n x.2 (hx ▸ List.mem_of_getElem? hi)

theorem wordByte_char {b : UInt8} (h : isWordByte b = true) :
    (Char.ofNat b.toNat).isAlphanum = true ∨ Char.ofNat b.toNat = '_' := by
  have hall : ∀ n < 128, isWordByte (UInt8.ofNat n) = true →
      (Char.ofNat n).isAlphanum = true ∨ Char.ofNat n = '_' := by decide
  have hb := isWordByte_ascii b h
  rw [← UInt8.ofNat_toNat (x := b)] at h
  exact hall b.toNat hb h

theorem startByte_char {b : UInt8} (h : isAlphaByte b = true ∨ b = byte '_') :
    (Char.ofNat b.toNat).isAlpha = true ∨ Char.ofNat b.toNat = '_' := by
  have hall : ∀ n < 128, isAlphaByte (UInt8.ofNat n) = true → (Char.ofNat n).isAlpha = true := by decide
  rcases h with h | rfl
  · have hb : b.toNat < 128 := isWordByte_ascii b (by simp [isWordByte, h])
    rw [← UInt8.ofNat_toNat (x := b)] at h
    exact .inl (hall b.toNat hb h)
  · exact .inr (by decide)

theorem textOf_ascii {w : Bytes} (h : ∀ b ∈ w, b.toNat < 128) :
    (textOf w).toList = w.map fun b => Char.ofNat b.toNat := by
  have hback : ∀ b ∈ w, (Char.ofNat b.toNat).toNat = b.toNat := fun b hb => char_ofNat_toNat (Nat.lt_trans (h b hb) (by decide))
  have hw : w = utf8 (w.map fun b => Char.ofNat b.toNat) := by
    rw [utf8_ascii, List.map_map]
    · refine (List.map_id' w).symm.trans (List.map_congr_left fun b hb => ?_)
      show b = UInt8.ofNat (Char.ofNat b.toNat).toNat
      rw [hback b hb, UInt8.ofNat_toNat]
    · intro c hc
      obtain ⟨b, hb, rfl⟩ := List.mem_map.mp hc
      rw [hback b hb]
      exact h b hb
  conv_lhs => rw [hw]
  rw [textOf_utf8, String.toList_ofList]

theorem nameText_word {c : UInt8} {w : Bytes} (hc : isAlphaByte c = true ∨ c = byte '_')
    (hw : ∀ b ∈ w, isWordByte b = true) : NameText (textOf (c :: w)).toList := by
  have hall : ∀ b ∈ c :: w, isWordByte b = true := by
    intro b hb
    rcases List.mem_cons.mp hb with rfl | hb
    · exact isWordByte_of_start hc
    · exact hw b hb
  rw [textOf_ascii fun b hb => isWordByte_ascii b (hall b hb)]
  refine ⟨⟨_, _, rfl, startByte_char hc⟩, fun d hd => ?_⟩
  obtain ⟨b, hb, rfl⟩ := List.mem_map.mp hd
  exact wordByte_char (hall b hb)

theorem wordTok_ident {w n : String} (h : wordTok w = .ident n) : n = w ∧ n.toList ∉ literalWords := by
  unfold wordTok at h
  cases hk : keywords.lookup w with
  | some s =>
    rw [hk] at h
    cases h
  | none =>
    rw [hk] at h
    cases h
    refine ⟨rfl, fun hin => ?_⟩
    have hwords : ∀ cs ∈ literalWords, keywords.lookup (String.ofList cs) ≠ none := by decide
    exact hwords _ hin (by rw [String.ofList_toList]; exact hk)

section
variable [External]

theorem Path.named {i : Nat} {w r : Bytes} {ts : List Spanned} (h : Path i w ts r) : Named ts := by
  induction h with
  | nil => nofun
  | @cons i w w' r t ts hlex tail ih =>
    intro n pos hin
    rcases List.mem_append.mp hin with hin | hin
    · cases hlex with
      | word hc hw hr hf =>
        have htok : (Tok.ident n, pos) = (wordTok (textOf _), i) := List.mem_singleton.mp hin
        obtain ⟨heq, -⟩ := Prod.mk.inj htok
        obtain ⟨rfl, hlit⟩ := wordTok_ident heq.symm
        exact ⟨nameText_word hc hw, hlit⟩
      | blank _ _ => cases hin
      | comment _ _ => cases hin
      | newline _ => cases List.mem_singleton.mp hin
      | string _ _ => cases List.mem_singleton.mp hin
      | fstring _ _ => cases List.mem_singleton.mp hin
      | number _ _ _ _ => cases List.mem_singleton.mp hin
      | two _ _ _ => cases List.mem_singleton.mp hin
      | one _ _ _ => cases List.mem_singleton.mp hin
    · exact ih n pos hin

theorem named_of_lex {src : Bytes} {toks : List Spanned} (h : lex src = .ok toks) : Named toks := by
  obtain ⟨ts, rfl, hpath⟩ := lex_iff.mp h
  intro n pos hin
  rcases List.mem_append.mp hin with hin | hin
  · exact hpath.named n pos hin
  · cases List.mem_singleton.mp hin

omit [External] in
theorem written_num (n : Float) : Written (.lit (num n)) := by
  unfold num
  split
  · exact ⟨rfl, rfl⟩
  · unfold Number.fromF64
    split
    · exact ⟨rfl, rfl⟩
    · exact ⟨rfl, rfl⟩

omit [External] in
theorem nameText_of_all {c : Char} {cs : List Char} (hc : c.isAlpha = true)
    (h : ((c :: cs).all fun d => d.isAlphanum || d == '_') = true) : NameText (c :: cs) where
  opens := ⟨c, cs, rfl, .inl hc⟩
  chars d hd := by simpa using List.all_eq_true.mp h d hd

omit [External] in
theorem written_directive {n : String} (h : n = "source" ∨ n = "tool" ∨ n = "driver" ∨ n = "api") : Written (.var n) := by
  rcases h with rfl | rfl | rfl | rfl
  · exact ⟨nameText_of_all rfl rfl, by decide⟩
  · exact ⟨nameText_of_all rfl rfl, by decide⟩
  · exact ⟨nameText_of_all rfl rfl, by decide⟩
  · exact ⟨nameText_of_all rfl rfl, by decide⟩

section
variable {p : Input}

mutual

theorem written_expr (h : Named p.toks) : ∀ fuel bp i, Yields (expr fuel p bp) i fun e _ => Written e
  | 0, _, _ => by
    intro a j hrun
    cases hrun
  | fuel + 1, bp, i => by
    unfold expr
    refine (written_primary h fuel i).bind fun e j he => ?_
    refine (written_postfixes h fuel e j he).bind fun e k he => ?_
    exact written_operators h fuel bp e k he

theorem written_primary (h : Named p.toks) : ∀ fuel i, Yields (primary fuel p) i fun e _ => Written e
  | 0, _ => by
    intro a j hrun
    cases hrun
  | fuel + 1, i => by
    unfold primary
    refine Yields.next fun t ht => ?_
    split
    · exact yields_pure (written_num _)
    · exact yields_pure ⟨rfl, rfl⟩
    · exact yields_pure ⟨rfl, rfl⟩
    · exact yields_pure ⟨rfl, rfl⟩
    · exact yields_pure ⟨rfl, rfl⟩
    · exact (yields_any _).bind fun _ _ _ => yields_pure trivial
    · exact (yields_any _).bind fun _ _ _ => yields_pure trivial
    · exact (yields_any _).bind fun _ _ _ => yields_pure trivial
    · exact yields_pure (written_directive (by simp))
    · exact yields_pure (written_directive (by simp))
    · exact yields_pure (written_directive (by simp))
    · exact yields_pure (written_directive (by simp))
    · exact (yields_any _).bind fun _ _ _ => yields_pure trivial
    · refine (written_expr h fuel 0 _).bind fun e j he => ?_
      exact (yields_any _).bind fun _ _ _ => yields_pure he
    · exact (yields_any _).bind fun _ _ _ => (yields_any _).bind fun _ _ _ => yields_pure trivial
    · exact (yields_any _).bind fun _ _ _ => (yields_any _).bind fun _ _ _ => yields_pure trivial
    next name =>
      refine Yields.accept (fun _ => ?_) fun _ => ?_
      · exact (yields_any _).bind fun _ _ _ => yields_pure trivial
      · exact yields_pure (named_of_tokAt h ht)
    · exact yields_fail _

theorem written_postfixes (h : Named p.toks) : ∀ fuel e i, Written e → Yields (postfixes fuel p e) i fun e _ => Written e
  | 0, _, _, _ => by
    intro a j hrun
    cases hrun
  | fuel + 1, e, i, he => by
    unfold postfixes
    refine (yields_any _).bind fun t j _ => ?_
    split
    · refine (yields_any _).bind fun _ k _ => (yields_any _).bind fun f l _ => ?_
      exact written_postfixes h fuel _ _ he
    · refine (yields_any _).bind fun _ k _ => (yields_any _).bind fun f l _ => ?_
      exact written_postfixes h fuel _ _ he
    · refine (yields_any _).bind fun _ k _ => Yields.accept (fun _ => ?_) fun _ => ?_
      · exact written_postfixes h fuel _ _ trivial
      · refine (written_expr h fuel 0 _).bind fun inner l hinner => (yields_any _).bind fun _ m _ => ?_
        refine written_postfixes h fuel _ _ ?_
        split
        · exact trivial
        · exact ⟨he, hinner⟩
    · exact yields_pure he

theorem written_operators (h : Named p.toks) : ∀ fuel bp e i, Written e →
    Yields (operators fuel p bp e) i fun e _ => Written e
  | 0, _, _, _, _ => by
    intro a j hrun
    cases hrun
  | fuel + 1, bp, e, i, he => by
    unfold operators
    refine (yields_any _).bind fun t j _ => ?_
    split
    · exact yields_pure he
    · split
      · exact yields_pure he
      · refine (yields_any _).bind fun _ k _ => (written_expr h fuel _ _).bind fun r l hr => ?_
        exact written_operators h fuel bp _ _ ⟨he, hr⟩

end

def GuardsWritten (s : Stmt) : Prop :=
  ∀ arms o, Relation.ReflTransGen Nested (.ite arms o) s → ∀ c span body, (c, span, body) ∈ arms → Written c

omit [External] in
theorem guardsWritten_of {s : Stmt} (hnested : ∀ t, Nested t s → GuardsWritten t)
    (hown : ∀ arms o, s = .ite arms o → ∀ c span body, (c, span, body) ∈ arms → Written c) : GuardsWritten s := by
  intro arms o hin
  rcases hin.cases_tail with heq | ⟨t, ht, hn⟩
  · exact hown arms o heq
  · exact hnested t hn arms o ht

omit [External] in
theorem guardsWritten_ite {arms : List (Expr × Span × List Stmt)} {o : Option (List Stmt)}
    (harms : ∀ c span body, (c, span, body) ∈ arms → Written c ∧ ∀ s ∈ body, GuardsWritten s)
    (ho : ∀ body, o = some body → ∀ s ∈ body, GuardsWritten s) : GuardsWritten (.ite arms o) := by
  refine guardsWritten_of (fun t hn => ?_) fun arms' o' heq c span body hin => ?_
  · cases hn with
    | arm harm ht => exact (harms _ _ _ harm).2 t ht
    | orElse ht => exact ho _ rfl t ht
  · cases heq
    exact (harms c span body hin).1

omit [External] in
theorem guardsWritten_flat {s : Stmt} (hn : ∀ t, ¬ Nested t s) (hite : ∀ arms o, s ≠ .ite arms o) : GuardsWritten s :=
  guardsWritten_of (fun t ht => (hn t ht).elim) fun arms o heq => (hite arms o heq).elim

theorem written_condition (h : Named p.toks) (fuel i : Nat) : Yields (condition p fuel) i fun r _ => Written r.1 := by
  unfold condition
  refine (yields_any _).bind fun _ j _ => (written_expr h fuel 0 _).bind fun c k hc => ?_
  refine (yields_any _).bind fun _ l _ => (yields_any _).bind fun _ m _ => ?_
  exact yields_pure hc

mutual

theorem written_stmt (h : Named p.toks) : ∀ fuel i, Yields (stmt p fuel) i fun s _ => GuardsWritten s
  | 0, _ => by
    intro a j hrun
    cases hrun
  | fuel + 1, i => by
    unfold stmt
    refine (yields_any _).bind fun t j _ => ?_
    split
    · refine (yields_any _).bind fun _ _ _ => (yields_any _).bind fun _ _ _ => (yields_any _).bind fun _ _ _ => ?_
      exact (yields_any _).bind fun _ _ _ => yields_pure (guardsWritten_flat nofun nofun)
    · refine (yields_any _).bind fun _ _ _ => (yields_any _).bind fun _ _ _ => (yields_any _).bind fun _ _ _ => ?_
      exact (yields_any _).bind fun _ _ _ => yields_pure (guardsWritten_flat nofun nofun)
    · refine (yields_any _).bind fun _ _ _ => (yields_any _).bind fun _ _ _ => ?_
      exact yields_pure (guardsWritten_flat nofun nofun)
    · refine (yields_any _).bind fun _ _ _ => (written_condition h fuel _).bind fun c k hc => ?_
      refine (written_block h fuel k).bind fun body l hbody => ?_
      refine written_ifRest h fuel _ _ l (fun c' span' body' hin => ?_) nofun
      cases List.mem_singleton.mp hin
      exact ⟨hc, hbody⟩
    · refine (yields_any _).bind fun _ _ _ => Yields.next fun t _ => ?_
      split
      · refine (yields_any _).bind fun _ _ _ => (yields_any _).bind fun _ _ _ => (yields_any _).bind fun _ k _ => ?_
        refine (written_block h fuel k).bind fun body l hbody => (yields_any _).bind fun _ _ _ => ?_
        refine yields_pure (guardsWritten_of (fun t hn => ?_) nofun)
        cases hn with
        | body ht => exact hbody t ht
      · exact yields_fail _
    · refine (yields_any _).bind fun _ _ _ => (yields_any _).bind fun _ _ _ => (yields_any _).bind fun _ _ _ => ?_
      refine Yields.accept (fun _ => ?_) fun _ => ?_
      · exact (yields_any _).bind fun _ _ _ => yields_pure (guardsWritten_flat nofun nofun)
      · exact (yields_any _).bind fun _ _ _ => yields_pure (guardsWritten_flat nofun nofun)
    · exact yields_fail _

theorem written_ifRest (h : Named p.toks) : ∀ fuel (arms : List (Expr × Span × List Stmt)) (o : Option (List Stmt)) i,
    (∀ c span body, (c, span, body) ∈ arms → Written c ∧ ∀ s ∈ body, GuardsWritten s) →
    (∀ body, o = some body → ∀ s ∈ body, GuardsWritten s) → Yields (ifRest p fuel arms o) i fun s _ => GuardsWritten s
  | 0, _, _, _, _, _ => by
    intro a j hrun
    cases hrun
  | fuel + 1, arms, o, i, harms, ho => by
    unfold ifRest
    refine (yields_any _).bind fun t j _ => ?_
    split
    · refine (yields_any _).bind fun _ _ _ => (written_condition h fuel _).bind fun c k hc => ?_
      refine (written_block h fuel k).bind fun body l hbody => ?_
      refine written_ifRest h fuel _ _ l (fun c' span' body' hin => ?_) ho
      rcases List.mem_append.mp hin with hin | hin
      · exact harms c' span' body' hin
      · cases List.mem_singleton.mp hin
        exact ⟨hc, hbody⟩
    · refine (yields_any _).bind fun _ _ _ => (yields_any _).bind fun _ k _ => ?_
      refine (written_block h fuel k).bind fun body l hbody => ?_
      refine written_ifRest h fuel _ _ l harms fun body' heq => ?_
      cases heq
      exact hbody
    · exact (yields_any _).bind fun _ _ _ => yields_pure (guardsWritten_ite harms ho)
    · exact yields_fail _

theorem written_block (h : Named p.toks) : ∀ fuel i, Yields (block p fuel) i fun ss _ => ∀ s ∈ ss, GuardsWritten s
  | 0, _ => by
    intro a j hrun
    cases hrun
  | fuel + 1, i => by
    unfold block
    refine (yields_any _).bind fun _ j _ => (yields_any _).bind fun _ _ _ => ?_
    refine (yields_any _).bind fun _ _ _ => (yields_any _).bind fun _ _ _ => ?_
    split
    · exact yields_pure nofun
    · refine (yields_any _).bind fun _ k _ => ?_
      split
      · exact yields_fail _
      · refine (written_stmt h fuel k).bind fun s l hs => (written_block h fuel l).bind fun ss m hss => ?_
        exact yields_pure (List.forall_mem_cons.mpr ⟨hs, hss⟩)

end

theorem written_topLevel (h : Named p.toks) {d : Draft} (hd : ∀ s ∈ d.stmts, GuardsWritten s) (fuel i : Nat) :
    Yields (topLevel p d fuel) i fun d' _ => ∀ s ∈ d'.stmts, GuardsWritten s := by
  have hadd : ∀ {s : Stmt}, GuardsWritten s → ∀ t ∈ d.stmts ++ [s], GuardsWritten t := by
    intro s hs t ht
    rcases List.mem_append.mp ht with ht | ht
    · exact hd t ht
    · rw [List.mem_singleton.mp ht]
      exact hs
  unfold topLevel
  refine (yields_any _).bind fun t j _ => ?_
  split
  · exact (yields_any _).bind fun _ _ _ => yields_pure hd
  · exact (yields_any _).bind fun _ _ _ => yields_pure hd
  · exact (yields_any _).bind fun _ _ _ => yields_pure hd
  · exact (yields_any _).bind fun _ _ _ => yields_pure hd
  · refine (yields_any _).bind fun r k _ => ?_
    split
    · exact yields_pure (hadd (guardsWritten_flat nofun nofun))
    · exact (written_stmt h fuel k).bind fun s l hs => yields_pure (hadd hs)

theorem written_items (h : Named p.toks) : ∀ fuel (d : Draft) i, (∀ s ∈ d.stmts, GuardsWritten s) →
    Yields (items p fuel d) i fun d' _ => ∀ s ∈ d'.stmts, GuardsWritten s
  | 0, _, _, _ => by
    intro a j hrun
    cases hrun
  | fuel + 1, d, i, hd => by
    unfold items
    refine (yields_any _).bind fun _ j _ => (yields_any _).bind fun _ k _ => ?_
    split
    · exact yields_pure hd
    · refine (written_topLevel h hd fuel k).bind fun d' l hd' => ?_
      exact written_items h fuel d' l hd'

end

def ConditionOf (prog : Program) (c : Expr) : Prop :=
  ∃ arms o span body, StmtIn (.ite arms o) prog.stmts ∧ (c, span, body) ∈ arms

theorem written_of_parse {src : String} {prog : Program} {c : Expr} (h : parse src = .ok prog)
    (hc : ConditionOf prog c) : Written c := by
  obtain ⟨arms, o, span, body, ⟨s, hs, hin⟩, hmem⟩ := hc
  obtain ⟨toks, hlex, h⟩ := of_bind_ok h
  obtain ⟨⟨d, k⟩, hitems, h⟩ := of_bind_ok h
  cases h
  have hnamed : Named (Input.mk toks (bytesOf src)).toks := named_of_lex hlex
  exact written_items hnamed _ {} 0 nofun d k hitems s hs arms o hin c span body hmem

/-- Two conditions of parsed programs with one sentence mean the same where every text in them shows as
itself: no quotation mark in a string, no point, bracket or blank in a field name, and no digit in front
of a field of a number. -/
theorem sentence_determines_guard {src src' : String} {prog prog' : Program} {c c' : Expr} {names names' : List String}
    {refs refs' : List String} {sentence : String} (hparse : parse src = .ok prog) (hparse' : parse src' = .ok prog')
    (hc : ConditionOf prog c) (hc' : ConditionOf prog' c') (hs : ShowsItself c) (hs' : ShowsItself c')
    (hfloats : PrintsFloats fun x => FloatIn c x ∨ FloatIn c' x)
    (h : renderGuard names c = some (sentence, refs)) (h' : renderGuard names' c' = some (sentence, refs')) :
    ∀ inv s, eval inv c s = eval inv c' s := by
  have hsame := guard_unique h h' (written_of_parse hparse hc) (written_of_parse hparse' hc') hs hs' hfloats
  intro inv s
  rw [hsame]

end

def guarded (c : Expr) (stop : Nat) : Program where
  source := none
  tool := none
  api := none
  driver := none
  stmts := [.ite [(c, (3, stop), [])] none]
  surface := []
  emitSubjects := []
  invokes := []
  secretRefs := []

theorem conditionOf_guarded (c : Expr) (stop : Nat) : ConditionOf (guarded c stop) c :=
  ⟨_, _, _, _, ⟨_, List.mem_singleton.mpr rfl, .refl⟩, List.mem_singleton.mpr rfl⟩

def fieldGuard : Expr := .bin .eq (.field (.var "a") "b" false) (.var "c")

theorem occurs_fieldGuard {e : Expr} (h : Occurs e fieldGuard) :
    e = fieldGuard ∨ e = .field (.var "a") "b" false ∨ e = .var "a" ∨ e = .var "c" := by
  rcases h.cases_tail with heq | ⟨m, hm, hop⟩
  · exact .inl heq.symm
  · cases hop with
    | left =>
      rcases hm.cases_tail with heq | ⟨m, hm, hop⟩
      · exact .inr (.inl heq.symm)
      · cases hop
        rcases hm.cases_tail with heq | ⟨m, -, hop⟩
        · exact .inr (.inr (.inl heq.symm))
        · cases hop
    | right =>
      rcases hm.cases_tail with heq | ⟨m, -, hop⟩
      · exact .inr (.inr (.inr heq.symm))
      · cases hop

theorem showsItself_fieldGuard : ShowsItself fieldGuard := by
  intro e he
  rcases occurs_fieldGuard he with rfl | rfl | rfl | rfl
  · exact trivial
  · exact ⟨by simp [endsWord], nofun⟩
  · exact trivial
  · exact trivial

theorem sentence_determines_guard_field : ∃ prog prog' c c', @parse ascii "if a.b==c:\nend" = .ok prog ∧
    @parse ascii "if (a).\"b\"==c:\nend" = .ok prog' ∧ ConditionOf prog c ∧ ConditionOf prog' c' ∧
    @renderGuard ascii [] c = some ("a.b = c", []) ∧ @renderGuard ascii [] c' = some ("a.b = c", []) ∧
    ∀ inv s, @eval ascii inv c s = @eval ascii inv c' s := by
  have hparse : @parse ascii "if a.b==c:\nend" = .ok (guarded fieldGuard 9) := rfl
  have hparse' : @parse ascii "if (a).\"b\"==c:\nend" = .ok (guarded fieldGuard 13) := rfl
  have hfloats : @PrintsFloats ascii fun x => FloatIn fieldGuard x ∨ FloatIn fieldGuard x := by
    have hnone : ∀ x, ¬ (FloatIn fieldGuard x ∨ FloatIn fieldGuard x) := by
      rintro x (⟨hx, h⟩ | ⟨hx, h⟩)
      all_goals rcases occurs_fieldGuard h with heq | heq | heq | heq <;> cases heq
    exact @PrintsFloats.mk ascii _ (fun x hx => (hnone x hx).elim) (fun x hx => (hnone x hx).elim)
      fun x _ hx => (hnone x hx).elim
  have hsentence : @renderGuard ascii [] fieldGuard = some ("a.b = c", []) := rfl
  have hcond : ∀ stop, ConditionOf (guarded fieldGuard stop) fieldGuard := conditionOf_guarded fieldGuard
  refine ⟨_, _, fieldGuard, fieldGuard, hparse, hparse', hcond 9, hcond 13, hsentence, hsentence, ?_⟩
  exact @sentence_determines_guard ascii _ _ _ _ _ _ _ _ _ _ _ hparse hparse' (hcond 9) (hcond 13)
    showsItself_fieldGuard showsItself_fieldGuard hfloats hsentence hsentence

def pointGuard : Expr := .bin .eq (.field (.var "a") "b.c" false) (.var "d")

def pathGuard : Expr := .bin .eq (.field (.field (.var "a") "b" false) "c" false) (.var "d")

def earlyGuard : Expr := .bin .lt (.lit (.string "b\" < \"a")) (.lit (.string "c"))

def lateGuard : Expr := .bin .lt (.lit (.string "b")) (.lit (.string "a\" < \"c"))

def pathState : Ctx × Engine :=
  (⟨[("a", .object [("b", .object [("c", .string "x")])]), ("d", .string "x")], [], none, .program "default"⟩,
    .withSecrets (fun _ => none) "/p" "default" .error)

/-- Two fields that show as one path, and two texts that show as one, with guards that differ. -/
theorem sentence_hides_guard :
    (∃ prog prog', @parse ascii "if a.\"b.c\"==d:\nend" = .ok prog ∧ @parse ascii "if a.b.c==d:\nend" = .ok prog' ∧
      ConditionOf prog pointGuard ∧ ConditionOf prog' pathGuard ∧
      @renderGuard ascii [] pointGuard = some ("a.b.c = d", []) ∧ @renderGuard ascii [] pathGuard = some ("a.b.c = d", []) ∧
      (@eval ascii (@invoke ascii) pointGuard pathState).1 = .ok (.bool false) ∧
      (@eval ascii (@invoke ascii) pathGuard pathState).1 = .ok (.bool true)) ∧
    ∃ prog prog', @parse ascii "if \"b\\\" < \\\"a\"<\"c\":\nend" = .ok prog ∧
      @parse ascii "if \"b\"<\"a\\\" < \\\"c\":\nend" = .ok prog' ∧
      ConditionOf prog earlyGuard ∧ ConditionOf prog' lateGuard ∧
      @renderGuard ascii [] earlyGuard = @renderGuard ascii [] lateGuard ∧
      (@eval ascii (@invoke ascii) earlyGuard pathState).1 = .ok (.bool true) ∧
      (@eval ascii (@invoke ascii) lateGuard pathState).1 = .ok (.bool false) := by
  refine ⟨⟨guarded pointGuard 13, guarded pathGuard 11, rfl, rfl, ?_, ?_, rfl, rfl, rfl, rfl⟩, ?_⟩
  · exact conditionOf_guarded _ _
  · exact conditionOf_guarded _ _
  · refine ⟨guarded earlyGuard 18, guarded lateGuard 18, rfl, rfl, ?_, ?_, rfl, rfl, rfl⟩
    · exact conditionOf_guarded _ _
    · exact conditionOf_guarded _ _

end Vejas.Vjs
