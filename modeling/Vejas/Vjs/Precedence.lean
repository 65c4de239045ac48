import Vejas.Vjs.Fuel
import Vejas.Vjs.Locality
import Vejas.Vjs.Printing
import Vejas.Vjs.Rereading

/-! The parser reads the words of an expression as that expression: the prefix, the postfixes and the
operators of its three phases are the rows of the table of binding powers. -/

namespace Vejas.Vjs
open Json Rust

def Parses {α : Type} (m : Nat → Parse α) (i : Nat) (r : α × Nat) : Prop :=
  ∃ least, ∀ fuel, least ≤ fuel → m fuel i = .ok r

theorem parses_of {α : Type} {m : Nat → Parse α} {i : Nat} {r : α × Nat} (least : Nat)
    (h : ∀ fuel, least ≤ fuel → m (fuel + 1) i = .ok r) : Parses m i r := by
  refine ⟨least + 1, fun fuel hfuel => ?_⟩
  cases fuel with
  | zero => exact absurd hfuel (by omega)
  | succ fuel => exact h fuel (by omega)

def WordsAt (p : Input) (i : Nat) (ws : List Word) (j : Nat) : Prop := Stand p i (wordsToks ws) j

section
variable {p : Input} {i j : Nat} {w : Word} {ws ws' : List Word}

theorem WordsAt.uncons (h : WordsAt p i (w :: ws) j) : p.tokAt i = w.tok ∧ WordsAt p (i + 1) ws j := Stand.uncons h

theorem WordsAt.one (h : WordsAt p i [w] j) : p.tokAt i = w.tok ∧ j = i + 1 := by
  obtain ⟨htok, h⟩ := h.uncons
  cases h
  exact ⟨htok, rfl⟩

theorem WordsAt.split (h : WordsAt p i (ws ++ ws') j) : ∃ k, WordsAt p i ws k ∧ WordsAt p k ws' j := by
  unfold WordsAt wordsToks at h
  rw [List.map_append] at h
  exact Stand.split h

end

def Tok.stops (n : Nat) (t : Tok) : Bool :=
  !(t.is .dot || t.is .qDot || t.is .lBrack || t.is .lParen) && (binaryOp t).all fun o => o.2 ≤ n

def Tok.begins (t : Tok) : Bool := t.opens && !t.is .rParen

theorem binaryOp_le {t : Tok} {op : BinOp} {bp : Nat} (h : binaryOp t = some (op, bp)) : bp ≤ 6 := by
  cases t with
  | sym s =>
    have h : bindingPower s = some (op, bp) := h
    unfold bindingPower at h
    split at h <;> cases h <;> decide
  | _ => cases h

theorem Tok.stops_power {n : Nat} {t : Tok} {op : BinOp} {bp : Nat} (h : t.stops n = true)
    (hop : binaryOp t = some (op, bp)) : bp ≤ n := by
  unfold Tok.stops at h
  rw [Bool.and_eq_true, hop] at h
  exact of_decide_eq_true h.2

theorem Tok.stops_of {m n : Nat} {t : Tok} (h : t.stops n = true) (hle : n ≤ m ∨ 6 ≤ m) : t.stops m = true := by
  unfold Tok.stops
  rw [Bool.and_eq_true]
  refine ⟨(Bool.and_eq_true_iff.mp h).1, ?_⟩
  cases hop : binaryOp t with
  | none => rfl
  | some o =>
    have hn := Tok.stops_power h hop
    have hsix := binaryOp_le hop
    exact decide_eq_true (by omega)

theorem Tok.stops_calm {n : Nat} {t : Tok} (h : t.stops n = true) :
    t.is .dot = false ∧ t.is .qDot = false ∧ t.is .lBrack = false ∧ t.is .lParen = false := by
  unfold Tok.stops at h
  rw [Bool.and_eq_true, Bool.not_eq_true', Bool.or_eq_false_iff, Bool.or_eq_false_iff, Bool.or_eq_false_iff] at h
  exact ⟨h.1.1.1.1, h.1.1.1.2, h.1.1.2, h.1.2⟩

theorem bindingPower_sym (op : BinOp) : bindingPower op.sym = some (op, op.power) := by
  cases op <;> rfl

theorem stops_sym (op : BinOp) : (Tok.sym op.sym).stops op.power = true := by
  cases op <;> decide

section
variable [External] {p : Input} {i j k n : Nat} {e : Expr} {r : Expr × Nat}

theorem parses_expr {a b : Expr} {min : Nat} (h : Parses (primary · p) i (a, j))
    (h' : Parses (postfixes · p a) j (b, k)) (h'' : Parses (operators · p min b) k r) :
    Parses (expr · p min) i r := by
  obtain ⟨n, h⟩ := h
  obtain ⟨n', h'⟩ := h'
  obtain ⟨n'', h''⟩ := h''
  refine parses_of (max n (max n' n'')) fun fuel hfuel => ?_
  rw [expr, bind_run (h fuel (by omega)), bind_run (h' fuel (by omega))]
  exact h'' fuel (by omega)

theorem postfixes_end (h : (p.tokAt i).stops n = true) : Parses (postfixes · p e) i (e, i) := by
  obtain ⟨hdot, hqDot, hbrack, -⟩ := Tok.stops_calm h
  refine parses_of 0 fun fuel _ => ?_
  rw [postfixes, bind_run (peek_run rfl)]
  cases htok : p.tokAt i with
  | sym s =>
    rw [htok] at hdot hqDot hbrack
    cases s with
    | dot => cases hdot
    | qDot => cases hqDot
    | lBrack => cases hbrack
    | _ => rfl
  | _ => rfl

theorem operators_end {min : Nat} (h : (p.tokAt i).stops min = true) :
    Parses (operators · p min e) i (e, i) := by
  refine parses_of 0 fun fuel _ => ?_
  rw [operators, bind_run (peek_run rfl)]
  cases hop : binaryOp (p.tokAt i) with
  | none => rfl
  | some o =>
    obtain ⟨op, bp⟩ := o
    have hle := Tok.stops_power h hop
    dsimp only
    rw [if_pos hle]
    rfl

theorem operators_next {min : Nat} {op : BinOp} {rhs : Expr} (htok : p.tokAt i = .sym op.sym)
    (hmin : min < op.power) (h : Parses (expr · p op.power) (i + 1) (rhs, j))
    (h' : Parses (operators · p min (.bin op e rhs)) j r) : Parses (operators · p min e) i r := by
  obtain ⟨n, h⟩ := h
  obtain ⟨n', h'⟩ := h'
  have hop : binaryOp (.sym op.sym) = some (op, op.power) := bindingPower_sym op
  refine parses_of (max n n') fun fuel hfuel => ?_
  rw [operators, bind_run (peek_run htok), hop]
  dsimp only
  rw [if_neg (by omega), bind_run (show Input.advance i = .ok ((), i + 1) from rfl), bind_run (h fuel (by omega))]
  exact h' fuel (by omega)

theorem postfixes_field {name : String} {safe : Bool} (htok : p.tokAt i = .sym (if safe then .qDot else .dot))
    (hname : p.word "field name" (i + 1) = .ok (name, i + 2))
    (h : Parses (postfixes · p (.field e name safe)) (i + 2) r) : Parses (postfixes · p e) i r := by
  obtain ⟨n, h⟩ := h
  refine parses_of n fun fuel hfuel => ?_
  rw [postfixes, bind_run (peek_run htok)]
  cases safe with
  | true =>
    refine (bind_run (show Input.advance i = .ok ((), i + 1) from rfl)).trans ?_
    rw [bind_run hname]
    exact h fuel hfuel
  | false =>
    refine (bind_run (show Input.advance i = .ok ((), i + 1) from rfl)).trans ?_
    rw [bind_run hname]
    exact h fuel hfuel

theorem postfixes_projection (htok : p.tokAt i = .sym .lBrack) (hclose : p.tokAt (i + 1) = .sym .rBrack)
    (h : Parses (postfixes · p (.projection e)) (i + 2) r) : Parses (postfixes · p e) i r := by
  obtain ⟨n, h⟩ := h
  refine parses_of n fun fuel hfuel => ?_
  rw [postfixes, bind_run (peek_run htok)]
  refine (bind_run (show Input.advance i = .ok ((), i + 1) from rfl)).trans ?_
  rw [bind_run (accept_true (by rw [hclose]; rfl))]
  exact h fuel hfuel

theorem postfixes_brackets {c : Expr} (htok : p.tokAt i = .sym .lBrack)
    (hopen : (p.tokAt (i + 1)).is .rBrack = false) (hc : Parses (expr · p 0) (i + 1) (c, j))
    (hclose : p.tokAt j = .sym .rBrack)
    (h : Parses (postfixes · p (if isFilter c then .filter e c else .index e c)) (j + 1) r) :
    Parses (postfixes · p e) i r := by
  obtain ⟨n, h⟩ := h
  obtain ⟨n', hc⟩ := hc
  refine parses_of (max n n') fun fuel hfuel => ?_
  rw [postfixes, bind_run (peek_run htok)]
  refine (bind_run (show Input.advance i = .ok ((), i + 1) from rfl)).trans ?_
  rw [bind_run (accept_false hopen)]
  refine (bind_run (hc fuel (by omega))).trans ?_
  rw [bind_run (eat_run hclose)]
  exact h fuel (by omega)

theorem primary_name {name : String} (htok : p.tokAt i = .ident name)
    (hcall : (p.tokAt (i + 1)).is .lParen = false) : Parses (primary · p) i (.var name, i + 1) := by
  refine parses_of 0 fun fuel _ => ?_
  rw [primary, bind_run (next_run htok)]
  refine (bind_run (accept_false hcall)).trans ?_
  rfl

theorem primary_parens (htok : p.tokAt i = .sym .lParen) (h : Parses (expr · p 0) (i + 1) (e, j))
    (hclose : p.tokAt j = .sym .rParen) : Parses (primary · p) i (e, j + 1) := by
  obtain ⟨n, h⟩ := h
  refine parses_of n fun fuel hfuel => ?_
  rw [primary, bind_run (next_run htok)]
  refine (bind_run (h fuel hfuel)).trans ?_
  rw [bind_run (eat_run hclose)]
  rfl

theorem primary_unary {op : UnOp} (htok : p.tokAt i = .sym op.sym) (h : Parses (expr · p 9) (i + 1) (e, j)) :
    Parses (primary · p) i (.unary op e, j) := by
  obtain ⟨n, h⟩ := h
  refine parses_of n fun fuel hfuel => ?_
  rw [primary, bind_run (next_run htok)]
  cases op with
  | not => exact bind_run (h fuel hfuel)
  | neg => exact bind_run (h fuel hfuel)

theorem primary_call {name : String} {args : List Expr} (htok : p.tokAt i = .ident name)
    (hcall : p.tokAt (i + 1) = .sym .lParen) (h : Parses (callArgs · p) (i + 2) (args, j)) :
    Parses (primary · p) i (.call name args, j) := by
  obtain ⟨n, h⟩ := h
  refine parses_of n fun fuel hfuel => ?_
  rw [primary, bind_run (next_run htok)]
  refine (bind_run (accept_true (by rw [hcall]; rfl))).trans ?_
  exact bind_run (h fuel hfuel)

theorem primary_array {items : List Expr} (htok : p.tokAt i = .sym .lBrack)
    (hline : (p.tokAt (i + 1)).is .newline = false) (h : Parses (exprItems · p) (i + 1) (items, j)) :
    Parses (primary · p) i (.array items, j) := by
  obtain ⟨n, h⟩ := h
  refine parses_of n fun fuel hfuel => ?_
  rw [primary, bind_run (next_run htok)]
  refine (bind_run (skipNewlines_run hline)).trans ?_
  exact bind_run (h fuel hfuel)

theorem primary_doc {fields : List (String × Expr)} (htok : p.tokAt i = .sym .lBrace)
    (hline : (p.tokAt (i + 1)).is .newline = false) (h : Parses (exprFields · p) (i + 1) (fields, j)) :
    Parses (primary · p) i (.doc fields, j) := by
  obtain ⟨n, h⟩ := h
  refine parses_of n fun fuel hfuel => ?_
  rw [primary, bind_run (next_run htok)]
  refine (bind_run (skipNewlines_run hline)).trans ?_
  exact bind_run (h fuel hfuel)

theorem word_keyWord {name what : String} (htok : p.tokAt i = (keyWord name).tok) :
    p.word what i = .ok (name, i + 1) := by
  unfold keyWord at htok
  split at htok
  · have htok : p.tokAt i = wordTok name := htok
    unfold wordTok at htok
    unfold Input.word
    cases hk : keywords.lookup name with
    | none =>
      rw [hk] at htok
      rw [bind_run (peek_run htok)]
      rfl
    | some s =>
      rw [hk] at htok
      obtain ⟨pre, post, hmem, -⟩ := List.lookup_eq_some_iff.mp hk
      have hall : ∀ k ∈ keywords, (keywords.find? fun k' => k'.2 == k.2).map (·.1) = some k.1 := by decide
      have hback := hall (name, s) (by rw [hmem]; exact List.mem_append_right _ (List.mem_cons_self ..))
      rw [bind_run (peek_run htok)]
      dsimp only at hback ⊢
      rw [hback]
      rfl
  · exact word_str htok

end

section
variable [External] (numeral : Number → String)

/-- The parser reads the words of `e` as `e`, wherever they stand. What needs no operator can go on
with postfixes, and the rest with the operators of its row. -/
structure Back (e : Expr) : Prop where
  begins : ∃ w ws, words numeral e = w :: ws ∧ w.tok.begins = true
  base : e.power = 11 → ∀ {p : Input} {i j : Nat} {r : Expr × Nat}, WordsAt p i (words numeral e) j →
    (p.tokAt j).is .lParen = false → Parses (postfixes · p e) j r →
    ∃ a k, Parses (primary · p) i (a, k) ∧ Parses (postfixes · p a) k r
  whole : ∀ {p : Input} {min i j : Nat} {r : Expr × Nat}, min < e.power → WordsAt p i (words numeral e) j →
    (p.tokAt j).stops e.power = true → Parses (operators · p min e) j r → Parses (expr · p min) i r

end

section
variable [External] {numeral : Number → String} {p : Input} {i j : Nat} {e : Expr} {r : Expr × Nat}

omit [External] in
theorem BinOp.power_bounds (op : BinOp) : 0 < op.power ∧ op.power ≤ 6 := by
  cases op <;> decide

omit [External] in
theorem Expr.power_bounds (e : Expr) : 0 < e.power ∧ e.power ≤ 11 := by
  cases e with
  | bin op l r =>
    have hop := op.power_bounds
    exact ⟨hop.1, Nat.le_trans hop.2 (by decide)⟩
  | unary op e => exact ⟨Nat.zero_lt_succ _, Nat.le_succ _⟩
  | _ => exact ⟨Nat.zero_lt_succ _, Nat.le_refl _⟩

theorem Back.opens (hb : Back numeral e) (h : WordsAt p i (words numeral e) j) : (p.tokAt i).begins = true := by
  obtain ⟨w, ws, hws, hw⟩ := hb.begins
  rw [hws] at h
  rw [h.uncons.1]
  exact hw

theorem Back.alone {min : Nat} (hb : Back numeral e) (hmin : min < e.power) (h : WordsAt p i (words numeral e) j)
    (hclose : (p.tokAt j).stops min = true) : Parses (expr · p min) i (e, j) :=
  hb.whole hmin h (Tok.stops_of hclose (.inl (by omega))) (operators_end hclose)

theorem Back.parens (hb : Back numeral e)
    (h : WordsAt p i (.sym .lParen :: (words numeral e ++ [.sym .rParen])) j) : Parses (primary · p) i (e, j) := by
  obtain ⟨hopen, h⟩ := h.uncons
  obtain ⟨k, hwords, h⟩ := h.split
  obtain ⟨hclose, rfl⟩ := h.one
  exact primary_parens hopen (hb.alone e.power_bounds.1 hwords (by rw [hclose]; rfl)) hclose

theorem Back.wrapped_base (hb : Back numeral e) (h : WordsAt p i (Vjs.parens 11 e (words numeral e)) j)
    (hcall : (p.tokAt j).is .lParen = false) (hpost : Parses (postfixes · p e) j r) :
    ∃ a k, Parses (primary · p) i (a, k) ∧ Parses (postfixes · p a) k r := by
  unfold Vjs.parens at h
  split at h
  · exact ⟨e, j, hb.parens h, hpost⟩
  next hpower =>
    have hle := e.power_bounds.2
    exact hb.base (by omega) h hcall hpost

theorem Back.wrapped {min n : Nat} (hb : Back numeral e) (hmin : min < n)
    (h : WordsAt p i (Vjs.parens n e (words numeral e)) j) (hclose : (p.tokAt j).stops n = true)
    (hr : Parses (operators · p min e) j r) : Parses (expr · p min) i r := by
  unfold Vjs.parens at h
  split at h
  · exact parses_expr (hb.parens h) (postfixes_end hclose) hr
  next hpower => exact hb.whole (by omega) h (Tok.stops_of hclose (.inl (by omega))) hr

theorem whole_of_base {min n : Nat} (hbase : ∀ {r : Expr × Nat}, (p.tokAt j).is .lParen = false → Parses (postfixes · p e) j r →
      ∃ a k, Parses (primary · p) i (a, k) ∧ Parses (postfixes · p a) k r)
    (hclose : (p.tokAt j).stops n = true) (hr : Parses (operators · p min e) j r) : Parses (expr · p min) i r := by
  obtain ⟨a, k, hprimary, hpost⟩ := hbase (Tok.stops_calm hclose).2.2.2 (postfixes_end hclose)
  exact parses_expr hprimary hpost hr

omit [External] in
theorem Tok.begins_iff {t : Tok} : t.begins = true ↔
    t.is .newline = false ∧ t.is .rBrack = false ∧ t.is .rBrace = false ∧ t.is .comma = false ∧ t.is .rParen = false := by
  unfold Tok.begins
  rw [Bool.and_eq_true, Tok.opens_iff, Bool.not_eq_true']
  simp only [and_assoc]

omit [External] in
theorem itemsWords_cons (e : Expr) (es : List Expr) :
    ∃ more, itemsWords numeral (e :: es) = words numeral e ++ more := by
  cases es with
  | nil => exact ⟨[], (List.append_nil _).symm⟩
  | cons e' es => exact ⟨_, itemsWords.eq_3 _ _ _ (by simp)⟩

theorem items_line {es : List Expr} {s : Sym} (hes : ∀ e ∈ es, Back numeral e) (hs : (Tok.sym s).is .newline = false)
    (h : WordsAt p i (itemsWords numeral es ++ [.sym s]) j) : (p.tokAt i).is .newline = false := by
  cases es with
  | nil =>
    rw [(WordsAt.one h).1]
    exact hs
  | cons e es =>
    obtain ⟨more, hmore⟩ := @itemsWords_cons numeral e es
    rw [hmore, List.append_assoc] at h
    obtain ⟨k, he, -⟩ := h.split
    exact (Tok.begins_iff.mp ((hes e (List.mem_cons_self ..)).opens he)).1

theorem exprItems_next {es : List Expr} {k l : Nat} (hb : Back numeral e) (h : WordsAt p i (words numeral e) k)
    (hclose : (p.tokAt k).stops 0 = true) (hend : p.itemEnd k = .ok ((), l))
    (htail : Parses (exprItems · p) l (es, j)) : Parses (exprItems · p) i (e :: es, j) := by
  obtain ⟨n, he⟩ := hb.alone e.power_bounds.1 h hclose
  obtain ⟨n', htail⟩ := htail
  have hbegins := Tok.begins_iff.mp (hb.opens h)
  refine parses_of (max n n') fun fuel hfuel => ?_
  rw [exprItems, bind_run (accept_false hbegins.2.1)]
  refine (bind_run (he fuel (by omega))).trans ?_
  rw [bind_run hend]
  exact bind_run (htail fuel (by omega))

theorem exprItems_back : ∀ {es : List Expr} {i j : Nat}, (∀ e ∈ es, Back numeral e) →
    WordsAt p i (itemsWords numeral es ++ [.sym .rBrack]) j → Parses (exprItems · p) i (es, j)
  | [], i, j, _, h => by
    obtain ⟨hclose, rfl⟩ := WordsAt.one h
    refine parses_of 0 fun fuel _ => ?_
    rw [exprItems, bind_run (accept_true (by rw [hclose]; rfl))]
    rfl
  | [e], i, j, hes, h => by
    obtain ⟨k, he, h⟩ := h.split
    obtain ⟨hclose, rfl⟩ := h.one
    refine exprItems_next (hes e (List.mem_cons_self ..)) he (by rw [hclose]; rfl)
      (itemEnd_none (by rw [hclose]; rfl) (by rw [hclose]; rfl)) ?_
    exact exprItems_back (fun e he => absurd he List.not_mem_nil) h
  | e :: e' :: es, i, j, hes, h => by
    have hes' : ∀ e ∈ e' :: es, Back numeral e := fun c hc => hes c (List.mem_cons_of_mem e hc)
    rw [itemsWords.eq_3 _ _ _ (by simp), List.append_assoc] at h
    obtain ⟨k, he, h⟩ := h.split
    obtain ⟨hcomma, h⟩ := WordsAt.uncons h
    refine exprItems_next (hes e (List.mem_cons_self ..)) he (by rw [hcomma]; rfl) (itemEnd_comma hcomma ?_)
      (exprItems_back hes' h)
    exact items_line hes' rfl h

theorem callArgs_next {es : List Expr} {k l : Nat} {c : Bool} (hb : Back numeral e) (h : WordsAt p i (words numeral e) k)
    (hclose : (p.tokAt k).stops 0 = true) (hend : p.accept .comma k = .ok (c, l))
    (htail : Parses (callArgs · p) l (es, j)) : Parses (callArgs · p) i (e :: es, j) := by
  obtain ⟨n, he⟩ := hb.alone e.power_bounds.1 h hclose
  obtain ⟨n', htail⟩ := htail
  have hbegins := Tok.begins_iff.mp (hb.opens h)
  refine parses_of (max n n') fun fuel hfuel => ?_
  rw [callArgs, bind_run (accept_false hbegins.2.2.2.2)]
  refine (bind_run (he fuel (by omega))).trans ?_
  rw [bind_run hend]
  exact bind_run (htail fuel (by omega))

theorem callArgs_back : ∀ {es : List Expr} {i j : Nat}, (∀ e ∈ es, Back numeral e) →
    WordsAt p i (itemsWords numeral es ++ [.sym .rParen]) j → Parses (callArgs · p) i (es, j)
  | [], i, j, _, h => by
    obtain ⟨hclose, rfl⟩ := WordsAt.one h
    refine parses_of 0 fun fuel _ => ?_
    rw [callArgs, bind_run (accept_true (by rw [hclose]; rfl))]
    rfl
  | [e], i, j, hes, h => by
    obtain ⟨k, he, h⟩ := h.split
    obtain ⟨hclose, rfl⟩ := h.one
    refine callArgs_next (hes e (List.mem_cons_self ..)) he (by rw [hclose]; rfl)
      (accept_false (by rw [hclose]; rfl)) ?_
    exact callArgs_back (fun e he => absurd he List.not_mem_nil) h
  | e :: e' :: es, i, j, hes, h => by
    rw [itemsWords.eq_3 _ _ _ (by simp), List.append_assoc] at h
    obtain ⟨k, he, h⟩ := h.split
    obtain ⟨hcomma, h⟩ := WordsAt.uncons h
    exact callArgs_next (hes e (List.mem_cons_self ..)) he (by rw [hcomma]; rfl) (accept_true (by rw [hcomma]; rfl))
      (callArgs_back (fun c hc => hes c (List.mem_cons_of_mem e hc)) h)

omit [External] in
theorem begins_wordTok (w : String) : (wordTok w).begins = true := by
  unfold wordTok
  cases hk : keywords.lookup w with
  | none => rfl
  | some s =>
    obtain ⟨pre, post, hmem, -⟩ := List.lookup_eq_some_iff.mp hk
    have hall : ∀ k ∈ keywords, (Tok.sym k.2).begins = true := by decide
    exact hall (w, s) (by rw [hmem]; exact List.mem_append_right _ (List.mem_cons_self ..))

omit [External] in
theorem begins_keyWord (k : String) : (keyWord k).tok.begins = true := by
  unfold keyWord
  split
  · exact begins_wordTok k
  · rfl

omit [External] in
theorem fieldsWords_cons (f : String × Expr) (fs : List (String × Expr)) :
    ∃ more, fieldsWords numeral (f :: fs) = keyWord f.1 :: .sym .colon :: (words numeral f.2 ++ more) := by
  cases fs with
  | nil => exact ⟨[], by rw [List.append_nil, fieldsWords]⟩
  | cons f' fs => exact ⟨_, fieldsWords.eq_3 _ _ _ _ (by simp)⟩

omit [External] in
theorem fields_line {fs : List (String × Expr)} (h : WordsAt p i (fieldsWords numeral fs ++ [.sym .rBrace]) j) :
    (p.tokAt i).is .newline = false := by
  cases fs with
  | nil =>
    rw [(WordsAt.one h).1]
    rfl
  | cons f fs =>
    obtain ⟨more, hmore⟩ := @fieldsWords_cons numeral f fs
    rw [hmore] at h
    rw [(WordsAt.uncons h).1]
    exact (Tok.begins_iff.mp (begins_keyWord f.1)).1

theorem exprFields_next {name : String} {fs : List (String × Expr)} {k l : Nat} (hb : Back numeral e)
    (h : WordsAt p i (keyWord name :: .sym .colon :: words numeral e) k) (hclose : (p.tokAt k).stops 0 = true)
    (hend : p.itemEnd k = .ok ((), l)) (htail : Parses (exprFields · p) l (fs, j)) :
    Parses (exprFields · p) i ((name, e) :: fs, j) := by
  obtain ⟨hkey, h⟩ := h.uncons
  obtain ⟨hcolon, h⟩ := h.uncons
  obtain ⟨n, he⟩ := hb.alone e.power_bounds.1 h hclose
  obtain ⟨n', htail⟩ := htail
  have hbegins := Tok.begins_iff.mp (begins_keyWord name)
  refine parses_of (max n n') fun fuel hfuel => ?_
  rw [exprFields, bind_run (accept_false (by rw [hkey]; exact hbegins.2.2.1))]
  refine (bind_run (word_keyWord hkey)).trans ?_
  rw [bind_run (eat_run hcolon), bind_run (he fuel (by omega)), bind_run hend]
  exact bind_run (htail fuel (by omega))

theorem exprFields_back : ∀ {fs : List (String × Expr)} {i j : Nat}, (∀ f ∈ fs, Back numeral f.2) →
    WordsAt p i (fieldsWords numeral fs ++ [.sym .rBrace]) j → Parses (exprFields · p) i (fs, j)
  | [], i, j, _, h => by
    obtain ⟨hclose, rfl⟩ := WordsAt.one h
    refine parses_of 0 fun fuel _ => ?_
    rw [exprFields, bind_run (accept_true (by rw [hclose]; rfl))]
    rfl
  | [(name, e)], i, j, hfs, h => by
    rw [fieldsWords] at h
    obtain ⟨k, he, h⟩ := h.split
    obtain ⟨hclose, rfl⟩ := h.one
    refine exprFields_next (hfs (name, e) (List.mem_cons_self ..)) he (by rw [hclose]; rfl)
      (itemEnd_none (by rw [hclose]; rfl) (by rw [hclose]; rfl)) ?_
    exact exprFields_back (fun e he => absurd he List.not_mem_nil) h
  | (name, e) :: f :: fs, i, j, hfs, h => by
    have hwords : fieldsWords numeral ((name, e) :: f :: fs) ++ [.sym .rBrace] =
        (keyWord name :: .sym .colon :: words numeral e) ++ .sym .comma :: (fieldsWords numeral (f :: fs) ++ [.sym .rBrace]) := by
      rw [fieldsWords.eq_3 _ _ _ _ (by simp)]
      simp
    rw [hwords] at h
    obtain ⟨k, he, h⟩ := h.split
    obtain ⟨hcomma, h⟩ := WordsAt.uncons h
    exact exprFields_next (hfs (name, e) (List.mem_cons_self ..)) he (by rw [hcomma]; rfl)
      (itemEnd_comma hcomma (fields_line h)) (exprFields_back (fun c hc => hfs c (List.mem_cons_of_mem _ hc)) h)

theorem back_of_base (hbegins : ∃ w ws, words numeral e = w :: ws ∧ w.tok.begins = true)
    (hbase : ∀ {p : Input} {i j : Nat} {r : Expr × Nat}, WordsAt p i (words numeral e) j →
      (p.tokAt j).is .lParen = false → Parses (postfixes · p e) j r →
      ∃ a k, Parses (primary · p) i (a, k) ∧ Parses (postfixes · p a) k r) : Back numeral e :=
  ⟨hbegins, fun _ => hbase, fun _ h hclose hr => whole_of_base (hbase h) hclose hr⟩

theorem back_of_primary (hbegins : ∃ w ws, words numeral e = w :: ws ∧ w.tok.begins = true)
    (hprimary : ∀ {p : Input} {i j : Nat}, WordsAt p i (words numeral e) j → (p.tokAt j).is .lParen = false →
      Parses (primary · p) i (e, j)) : Back numeral e :=
  back_of_base hbegins fun h hcall hpost => ⟨e, _, hprimary h hcall, hpost⟩

theorem begins_parens {n : Nat} (hb : Back numeral e) (more : List Word) :
    ∃ w ws, parens n e (words numeral e) ++ more = w :: ws ∧ w.tok.begins = true := by
  unfold parens
  split
  · exact ⟨_, _, rfl, rfl⟩
  · obtain ⟨w, ws, hws, hw⟩ := hb.begins
    exact ⟨w, ws ++ more, by rw [hws]; rfl, hw⟩

theorem back_lit {v : Value} (h : (Expr.lit v).Sayable numeral) : Back numeral (.lit v) := by
  cases v with
  | array vs => exact absurd h id
  | object fs => exact absurd h id
  | null =>
    refine back_of_primary ⟨_, _, rfl, rfl⟩ fun hstand _ => ?_
    obtain ⟨htok, rfl⟩ := WordsAt.one hstand
    refine parses_of 0 fun fuel _ => ?_
    rw [primary, bind_run (next_run htok)]
    rfl
  | bool b =>
    refine back_of_primary ⟨_, _, rfl, by cases b <;> rfl⟩ fun hstand _ => ?_
    obtain ⟨htok, rfl⟩ := WordsAt.one hstand
    refine parses_of 0 fun fuel _ => ?_
    rw [primary, bind_run (next_run htok)]
    cases b <;> rfl
  | string s =>
    refine back_of_primary ⟨_, _, rfl, rfl⟩ fun hstand _ => ?_
    obtain ⟨htok, rfl⟩ := WordsAt.one hstand
    refine parses_of 0 fun fuel _ => ?_
    rw [primary, bind_run (next_run htok)]
    rfl
  | number n =>
    refine back_of_primary ⟨_, _, rfl, rfl⟩ fun hstand _ => ?_
    obtain ⟨htok, rfl⟩ := WordsAt.one hstand
    obtain ⟨x, hx, hnum⟩ := Option.map_eq_some_iff.mp h.2
    refine parses_of 0 fun fuel _ => ?_
    rw [primary, bind_run (next_run htok)]
    show Except.ok (Expr.lit (num ((F64.parse (numeral n)).getD 0)), _) = _
    rw [hx, Option.getD_some, hnum]

theorem back_var {name : String} (h : (Expr.var name).Sayable numeral) : Back numeral (.var name) := by
  obtain ⟨-, h⟩ := h
  refine back_of_primary ⟨_, _, rfl, begins_wordTok name⟩ fun hstand hcall => ?_
  obtain ⟨htok, rfl⟩ := WordsAt.one hstand
  have htok : _ = wordTok name := htok
  rcases h with h | h
  · unfold wordTok at htok
    rw [h] at htok
    exact primary_name htok hcall
  · refine parses_of 0 fun fuel _ => ?_
    rw [primary, bind_run (next_run htok)]
    simp only [List.mem_cons, List.not_mem_nil, or_false] at h
    rcases h with rfl | rfl | rfl | rfl <;> rfl

theorem back_array {items : List Expr} (hes : ∀ e ∈ items, Back numeral e) : Back numeral (.array items) := by
  refine back_of_primary ⟨_, _, by rw [words], rfl⟩ fun hstand _ => ?_
  rw [words] at hstand
  obtain ⟨htok, hstand⟩ := hstand.uncons
  exact primary_array htok (items_line hes rfl hstand) (exprItems_back hes hstand)

theorem back_doc {fields : List (String × Expr)} (hfs : ∀ f ∈ fields, Back numeral f.2) :
    Back numeral (.doc fields) := by
  refine back_of_primary ⟨_, _, by rw [words], rfl⟩ fun hstand _ => ?_
  rw [words] at hstand
  obtain ⟨htok, hstand⟩ := hstand.uncons
  exact primary_doc htok (fields_line hstand) (exprFields_back hfs hstand)

theorem back_call {name : String} {args : List Expr} (h : keywords.lookup name = none)
    (hes : ∀ e ∈ args, Back numeral e) : Back numeral (.call name args) := by
  refine back_of_primary ⟨.name name, _, by rw [words], begins_wordTok name⟩ fun hstand _ => ?_
  rw [words] at hstand
  obtain ⟨htok, hstand⟩ := hstand.uncons
  obtain ⟨hcall, hstand⟩ := hstand.uncons
  have htok : _ = wordTok name := htok
  unfold wordTok at htok
  rw [h] at htok
  exact primary_call htok hcall (callArgs_back hes hstand)

theorem back_field {b : Expr} (hb : Back numeral b) (name : String) (safe : Bool) : Back numeral (.field b name safe) := by
  obtain ⟨w, ws, hws, hw⟩ := @begins_parens _ numeral b 11 hb [.sym (if safe then .qDot else .dot), keyWord name]
  refine back_of_base ⟨w, ws, by rw [words, hws], hw⟩ fun hstand _ hpost => ?_
  rw [words] at hstand
  obtain ⟨k, hbase, hstand⟩ := hstand.split
  obtain ⟨hdot, hstand⟩ := hstand.uncons
  obtain ⟨hname, rfl⟩ := hstand.one
  exact hb.wrapped_base hbase (by rw [hdot]; cases safe <;> rfl) (postfixes_field hdot (word_keyWord hname) hpost)

theorem back_projection {b : Expr} (hb : Back numeral b) : Back numeral (.projection b) := by
  obtain ⟨w, ws, hws, hw⟩ := @begins_parens _ numeral b 11 hb [.sym .lBrack, .sym .rBrack]
  refine back_of_base ⟨w, ws, by rw [words, hws], hw⟩ fun hstand _ hpost => ?_
  rw [words] at hstand
  obtain ⟨k, hbase, hstand⟩ := hstand.split
  obtain ⟨hopen, hstand⟩ := hstand.uncons
  obtain ⟨hclose, rfl⟩ := hstand.one
  exact hb.wrapped_base hbase (by rw [hopen]; rfl) (postfixes_projection hopen hclose hpost)

theorem back_brackets {b c : Expr} (hb : Back numeral b) (hc : Back numeral c)
    (hwords : words numeral e = parens 11 b (words numeral b) ++ .sym .lBrack :: (words numeral c ++ [.sym .rBrack]))
    (he : (if isFilter c then .filter b c else .index b c) = e) : Back numeral e := by
  obtain ⟨w, ws, hws, hw⟩ := @begins_parens _ numeral b 11 hb (.sym .lBrack :: (words numeral c ++ [.sym .rBrack]))
  refine back_of_base ⟨w, ws, by rw [hwords, hws], hw⟩ fun hstand _ hpost => ?_
  rw [hwords] at hstand
  obtain ⟨k, hbase, hstand⟩ := hstand.split
  obtain ⟨hopen, hstand⟩ := hstand.uncons
  obtain ⟨l, hinner, hstand⟩ := hstand.split
  obtain ⟨hclose, rfl⟩ := hstand.one
  refine hb.wrapped_base hbase (by rw [hopen]; rfl) ?_
  have hbegins := Tok.begins_iff.mp (hc.opens hinner)
  refine postfixes_brackets hopen hbegins.2.1 (hc.alone c.power_bounds.1 hinner (by rw [hclose]; rfl)) hclose ?_
  rwa [he]

theorem back_unary {b : Expr} (hb : Back numeral b) (op : UnOp) : Back numeral (.unary op b) := by
  refine ⟨⟨_, _, by rw [words], by cases op <;> rfl⟩, fun hpower => absurd hpower (show (10 : Nat) ≠ 11 by decide), ?_⟩
  intro p min i j r hmin hstand hclose hr
  rw [words] at hstand
  obtain ⟨htok, hstand⟩ := hstand.uncons
  -- every operator binds less than a unary one
  have hend : (p.tokAt j).stops 9 = true := Tok.stops_of hclose (.inr (by decide))
  have hoperand := hb.wrapped (by decide) hstand (Tok.stops_of hclose (.inr (by decide))) (operators_end hend)
  exact parses_expr (primary_unary htok hoperand) (postfixes_end hclose) hr

theorem back_bin {a b : Expr} (ha : Back numeral a) (hb : Back numeral b) (op : BinOp) :
    Back numeral (.bin op a b) := by
  have hbounds := op.power_bounds
  obtain ⟨w, ws, hws, hw⟩ := @begins_parens _ numeral a op.power ha
    (.sym op.sym :: parens (op.power + 1) b (words numeral b))
  refine ⟨⟨w, ws, by rw [words, hws], hw⟩, ?_, ?_⟩
  · intro hpower
    have hpower : op.power = 11 := hpower
    omega
  · intro p min i j r hmin hstand hclose hr
    have hmin : min < op.power := hmin
    have hclose : (p.tokAt j).stops op.power = true := hclose
    rw [words] at hstand
    obtain ⟨k, hleft, hstand⟩ := hstand.split
    obtain ⟨htok, hright⟩ := hstand.uncons
    have hrhs := hb.wrapped (Nat.lt_succ_self _) hright (Tok.stops_of hclose (.inl (Nat.le_succ _)))
      (operators_end hclose)
    exact ha.wrapped hmin hleft (by rw [htok]; exact stops_sym op) (operators_next htok hmin hrhs hr)

theorem back_of_printable (h : Printable numeral e) : Back numeral e := by
  induction e using Expr.induct with
  | h e ih =>
    have hpart : ∀ c, Operand c e → Back numeral c := fun c hc => ih c hc (h.operand hc)
    have hhere := h.here
    cases e with
    | lit v => exact back_lit hhere
    | fString parts => exact absurd hhere id
    | invoke name args => exact absurd hhere id
    | var name => exact back_var hhere
    | doc fields => exact back_doc fun f hf => hpart f.2 (.docField hf)
    | array items => exact back_array fun c hc => hpart c (.item hc)
    | field b name safe => exact back_field (hpart b .fieldBase) name safe
    | index b k =>
      have hhere : isFilter k = false := hhere
      exact back_brackets (hpart b .indexBase) (hpart k .indexKey) (by rw [words]) (by simp [hhere])
    | projection b => exact back_projection (hpart b .projected)
    | filter b c =>
      have hhere : isFilter c = true := hhere
      exact back_brackets (hpart b .filterBase) (hpart c .filterCond) (by rw [words]) (by simp [hhere])
    | call name args => exact back_call hhere.2 fun c hc => hpart c (.callArg hc)
    | unary op b => exact back_unary (hpart b .unary) op
    | bin op l r => exact back_bin (hpart l .left) (hpart r .right) op

theorem expr_parseFuel {src : Bytes} {toks : List Spanned} (hlex : lex src = .ok toks) {bp : Nat}
    (h : Parses (expr · ⟨toks, src⟩ bp) 0 r) : expr (parseFuel src) ⟨toks, src⟩ bp 0 = .ok r := by
  obtain ⟨n, h⟩ := h
  have hfuel := lexFrom_fits src (src.length + 1) 0 (Nat.le_refl _)
  unfold lex at hlex
  rw [hlex] at hfuel
  have hw : toksWeight toks ≤ src.length + 1 := hfuel
  have hleft : Input.left ⟨toks, src⟩ 0 = toksWeight toks := rfl
  have hends := ends_expr (parseFuel src) ⟨toks, src⟩ bp 0 (by
    unfold parseFuel
    omega)
  obtain ⟨-, hsame⟩ := follows_expr n (parseFuel src) ⟨toks, src⟩ ⟨toks, src⟩ bp 0 0 r.1 r.2 (h n (Nat.le_refl n))
  rcases hsame fun _ _ => rfl with hout | ⟨a, ha, rfl⟩
  · unfold Ends at hends
    rw [hout] at hends
    exact absurd rfl hends
  · rw [ha, Nat.zero_add, Nat.sub_zero]

/-- Printing an expression, lexing the text and parsing the tokens with `expr(0)` gives the
expression back and stops before the newline that the lexer adds. -/
def ComesBack (numeral : Number → String) (e : Expr) : Prop :=
  ∃ toks : List Spanned, lex (bytesOf (print numeral e)) =
      .ok (toks ++ [(.sym .newline, (bytesOf (print numeral e)).length)]) ∧
    expr (parseFuel (bytesOf (print numeral e)))
      ⟨toks ++ [(.sym .newline, (bytesOf (print numeral e)).length)], bytesOf (print numeral e)⟩ 0 0 =
        .ok (e, toks.length)

theorem printed_comes_back (numeral : Number → String) (e : Expr) (h : Printable numeral e) : ComesBack numeral e := by
  have hbytes : bytesOf (print numeral e) = utf8 (wordsText (words numeral e)) := bytesOf_ofList _
  obtain ⟨toks, hlex, htoks⟩ := lex_of_legal (legal_words h)
  rw [← hbytes] at hlex
  refine ⟨toks, hlex, expr_parseFuel hlex ?_⟩
  have hafter : Input.after ⟨toks ++ [(.sym .newline, (bytesOf (print numeral e)).length)], bytesOf (print numeral e)⟩ 0 =
      wordsToks (words numeral e) ++ [.sym .newline] := by
    rw [← htoks]
    exact List.map_append
  have hlen : toks.length = (words numeral e).length := by
    have := congrArg List.length htoks
    rwa [List.length_map, wordsToks, List.length_map] at this
  have hstand := stand_of_after hafter
  rw [Nat.zero_add, wordsToks, List.length_map, ← hlen] at hstand
  have hend := (after_cons (after_append hafter)).1
  rw [Nat.zero_add, wordsToks, List.length_map, ← hlen] at hend
  exact (back_of_printable h).alone e.power_bounds.1 hstand (by rw [hend]; rfl)

theorem printable_posInt (n : UInt64) (h : n.toNat < 9000000000000000) :
    Printable Number.render (.lit (.number (.posInt n))) := by
  obtain ⟨c, cs, hdigits, hc⟩ := toDigits_cons n.toNat
  have hall : ∀ d ∈ c :: cs, d.isDigit = true := by
    intro d hd
    rw [← hdigits] at hd
    exact Nat.isDigit_of_mem_toDigits (by decide) (by decide) hd
  have hrender : (Number.posInt n).render = String.ofList (c :: cs) := by
    rw [← hdigits, ← chars_posInt, chars, Value.render, String.ofList_toList]
  have hparse : F64.parse (Number.posInt n).render = some (F64.ofDecimal n.toNat 0) := by
    rw [hrender, parse_digits hall, ← hdigits, natOf_toDigits]
  have hbytes : bytesOf (Number.posInt n).render = byte c :: cs.map byte := by
    rw [hrender, bytesOf_ofList, utf8_ascii fun d hd => digit_ascii (hall d hd)]
    rfl
  refine printable_of ⟨?_, ?_⟩ fun c hc => by cases hc
  · unfold isNumeral
    rw [hbytes, hparse]
    simp only [Bool.and_eq_true, List.all_eq_true, Option.isSome_some, and_true, isDigitByte_of_isDigit hc, true_and]
    intro b hb
    obtain ⟨d, hd, rfl⟩ := List.mem_map.mp hb
    unfold isNumByte
    rw [isDigitByte_of_isDigit (hall d (List.mem_cons_of_mem c hd))]
    rfl
  · rw [hparse, Option.map_some, num_posInt n h]

end

theorem printed_comes_back_product :
    @ComesBack ascii (@Number.render ascii) (.bin .mul (.bin .add (.var "a") (.lit (.number (.posInt 1))))
      (.unary .neg (.filter (.var "b") (.bin .eq (.lit (.string "k")) (.var "c"))))) := by
  have hname : ∀ name ∈ ["a", "b", "c"], isName name = true ∧ keywords.lookup name = none := by decide
  have hvar : ∀ name ∈ ["a", "b", "c"], Printable (@Number.render ascii) (.var name) :=
    fun name h => printable_of ⟨(hname name h).1, .inl (hname name h).2⟩ fun c hc => by cases hc
  refine @printed_comes_back ascii _ _ (printable_of trivial fun c hc => ?_)
  cases hc with
  | left =>
    refine printable_of trivial fun c hc => ?_
    cases hc with
    | left => exact hvar "a" (by decide)
    | right => exact @printable_posInt ascii 1 (by decide)
  | right =>
    refine printable_of trivial fun c hc => ?_
    cases hc
    refine printable_of rfl fun c hc => ?_
    cases hc with
    | filterBase => exact hvar "b" (by decide)
    | filterCond =>
      refine printable_of trivial fun c hc => ?_
      cases hc with
      | left => exact printable_of trivial fun c hc => by cases hc
      | right => exact hvar "c" (by decide)

/-- Brackets around a name are an index. -/
theorem filter_by_name_is_index :
    ¬ @ComesBack ascii (@Number.render ascii) (.filter (.var "a") (.var "b")) := by
  rintro ⟨toks, hlex, hexpr⟩
  have hlex' : @lex ascii (bytesOf (print (@Number.render ascii) (.filter (.var "a") (.var "b")))) =
      .ok [(.ident "a", 0), (.sym .lBrack, 2), (.ident "b", 4), (.sym .rBrack, 6), (.sym .newline, 8)] := rfl
  rw [hlex'] at hlex
  rw [← Except.ok.inj hlex] at hexpr
  have hindex : @expr ascii 80 ⟨[(.ident "a", 0), (.sym .lBrack, 2), (.ident "b", 4), (.sym .rBrack, 6), (.sym .newline, 8)],
      bytesOf (print (@Number.render ascii) (.filter (.var "a") (.var "b")))⟩ 0 0 =
        .ok (.index (.var "a") (.var "b"), 4) := rfl
  cases hindex.symm.trans hexpr

end Vejas.Vjs
