import Vejas.Vjs.Fuel
import Vejas.Vjs.Utf8

/-! The lexer one lexeme at a time. What a lexeme is depends on its own bytes and on at most two
bytes after it, so a text is cut into lexemes the same way wherever it stands. -/

namespace Vejas.Vjs
open Rust
variable [External]

def lexSymbol (src : Bytes) (i : Nat) (c : UInt8) (two : Bytes) : Except Fault (Option Tok × Nat) :=
  match twoByte.lookup (textOf two), oneByte.lookup (Char.ofNat c.toNat) with
  | some s, _ => .ok (some (.sym s), i + 2)
  | none, some s => .ok (some (.sym s), i + 1)
  | none, none => .error (errAt i src ("unexpected character " ++ debugChar (Char.ofNat c.toNat)))

def lexOne (src : Bytes) (fuel i : Nat) (c : UInt8) (rest : Bytes) : Except Fault (Option Tok × Nat) :=
  if c = byte ' ' ∨ c = byte '\t' ∨ c = byte '\r' then .ok (none, i + 1)
  else if c = byte '\n' then .ok (some (.sym .newline), i + 1)
  else if c = byte '#' then .ok (none, i + ((c :: rest).takeWhile (· != byte '\n')).length)
  else if c = byte '"' then do
    let (s, ni) ← lexString src i
    .ok (some (.str s), ni)
  else if c = byte 'f' ∧ rest.head? = some (byte '"') then do
    let (parts, ni) ← lexFstring src (i + 1) fuel [] [] (i + 2)
    .ok (some (.fStr parts), ni)
  else if isDigitByte c then
    let w := (c :: rest).takeWhile fun b => isDigitByte b || b == byte '.'
    match F64.parse (textOf w) with
    | none => .error (errAt i src "bad number")
    | some n => .ok (some (.num n), i + w.length)
  else if isAlphaByte c ∨ c = byte '_' then
    let w := (c :: rest).takeWhile isWordByte
    .ok (some (wordTok (textOf w)), i + w.length)
  else if i + 1 < src.length then do
    let two ← slice src i (i + 2)
    lexSymbol src i c two
  else lexSymbol src i c []

def spanned (i : Nat) (t : Option Tok) : List Spanned := t.toList.map (·, i)

theorem lexFrom_succ {src rest : Bytes} {c : UInt8} {i : Nat} (fuel : Nat)
    (h : src.drop i = c :: rest) :
    lexFrom src (fuel + 1) i = (do
      let (t, ni) ← lexOne src fuel i c rest
      let ts ← lexFrom src fuel ni
      .ok (spanned i t ++ ts)) := by
  rw [lexFrom, h]
  have hid : ∀ r : Except Fault (List Spanned), r = (do
      let ts ← r
      .ok ts) := by
    intro r
    cases r <;> rfl
  unfold lexOne
  dsimp only
  by_cases hblank : c = byte ' ' ∨ c = byte '\t' ∨ c = byte '\r'
  · rw [if_pos hblank, if_pos hblank]
    exact hid _
  rw [if_neg hblank, if_neg hblank]
  by_cases hline : c = byte '\n'
  · rw [if_pos hline, if_pos hline]
    rfl
  rw [if_neg hline, if_neg hline]
  by_cases hhash : c = byte '#'
  · rw [if_pos hhash, if_pos hhash]
    exact hid _
  rw [if_neg hhash, if_neg hhash]
  by_cases hquote : c = byte '"'
  · rw [if_pos hquote, if_pos hquote]
    cases lexString src i <;> rfl
  rw [if_neg hquote, if_neg hquote]
  by_cases hf : c = byte 'f' ∧ rest.head? = some (byte '"')
  · rw [if_pos hf, if_pos hf]
    cases lexFstring src (i + 1) fuel [] [] (i + 2) <;> rfl
  rw [if_neg hf, if_neg hf]
  by_cases hdigit : isDigitByte c = true
  · rw [if_pos hdigit, if_pos hdigit]
    cases F64.parse _ <;> rfl
  rw [if_neg hdigit, if_neg hdigit]
  by_cases hword : isAlphaByte c = true ∨ c = byte '_'
  · rw [if_pos hword, if_pos hword]
    rfl
  rw [if_neg hword, if_neg hword]
  have hsym : ∀ two, (match twoByte.lookup (textOf two), oneByte.lookup (Char.ofNat c.toNat) with
      | some s, _ => do
        let ts ← lexFrom src fuel (i + 2)
        .ok ((Tok.sym s, i) :: ts)
      | none, some s => do
        let ts ← lexFrom src fuel (i + 1)
        .ok ((Tok.sym s, i) :: ts)
      | none, none => .error (errAt i src ("unexpected character " ++ debugChar (Char.ofNat c.toNat))))
        = (do
          let (t, ni) ← lexSymbol src i c two
          let ts ← lexFrom src fuel ni
          .ok (spanned i t ++ ts)) := by
    intro two
    unfold lexSymbol
    cases twoByte.lookup (textOf two) with
    | some s => rfl
    | none => cases oneByte.lookup (Char.ofNat c.toNat) <;> rfl
  by_cases htwo : i + 1 < src.length
  · rw [if_pos htwo, if_pos htwo]
    cases slice src i (i + 2) with
    | error f => rfl
    | ok two => exact hsym two
  · rw [if_neg htwo, if_neg htwo]
    exact hsym []

theorem lexFrom_end {src : Bytes} {i : Nat} (fuel : Nat) (h : src.drop i = []) :
    lexFrom src (fuel + 1) i = .ok [(.sym .newline, src.length)] := by
  rw [lexFrom, h]

omit [External] in
theorem bind_settled {α β : Type} {m m' : Except Fault α} {f f' : α → Except Fault β}
    (h : m >>= f ≠ .error .outOfFuel) (hm : m ≠ .error .outOfFuel → m' = m)
    (hf : ∀ a, f a ≠ .error .outOfFuel → f' a = f a) : m' >>= f' = m >>= f := by
  cases m with
  | error e =>
    rw [hm fun he => h (by rw [he]; rfl)]
    rfl
  | ok a =>
    rw [hm nofun]
    exact hf a h

theorem lexOne_fstring {src rest : Bytes} (fuel i : Nat) (h : rest.head? = some (byte '"')) :
    lexOne src fuel i (byte 'f') rest = (do
      let (parts, ni) ← lexFstring src (i + 1) fuel [] [] (i + 2)
      .ok (some (.fStr parts), ni)) := by
  unfold lexOne
  rw [if_neg (by decide), if_neg (by decide), if_neg (by decide), if_neg (by decide), if_pos ⟨rfl, h⟩]

theorem lexOne_settled {src rest : Bytes} {fuel fuel' i : Nat} {c : UInt8}
    (hstr : lexFstring src (i + 1) fuel [] [] (i + 2) ≠ .error .outOfFuel →
      lexFstring src (i + 1) fuel' [] [] (i + 2) = lexFstring src (i + 1) fuel [] [] (i + 2))
    (h : lexOne src fuel i c rest ≠ .error .outOfFuel) :
    lexOne src fuel' i c rest = lexOne src fuel i c rest := by
  by_cases hf : c = byte 'f' ∧ rest.head? = some (byte '"')
  · obtain ⟨rfl, hhead⟩ := hf
    rw [lexOne_fstring _ _ hhead] at h
    rw [lexOne_fstring _ _ hhead, lexOne_fstring _ _ hhead]
    exact bind_settled h hstr fun _ _ => rfl
  · unfold lexOne
    simp only [if_neg hf]

mutual

theorem lexFrom_settled : ∀ (fuel : Nat) (src : Bytes) (i : Nat),
    lexFrom src fuel i ≠ .error .outOfFuel → lexFrom src (fuel + 1) i = lexFrom src fuel i
  | 0, src, i, h => absurd rfl h
  | fuel + 1, src, i, h => by
    cases hdrop : src.drop i with
    | nil => rw [lexFrom_end _ hdrop, lexFrom_end _ hdrop]
    | cons c rest =>
      rw [lexFrom_succ _ hdrop] at h
      rw [lexFrom_succ _ hdrop, lexFrom_succ _ hdrop]
      refine bind_settled h (lexOne_settled (lexFstring_settled fuel src (i + 1) [] [] (i + 2))) ?_
      rintro ⟨t, ni⟩ h
      exact bind_settled h (lexFrom_settled fuel src ni) fun _ _ => rfl

theorem lexFstring_settled : ∀ (fuel : Nat) (src : Bytes) (quote : Nat) (parts : List FPart)
    (lit : Bytes) (i : Nat), lexFstring src quote fuel parts lit i ≠ .error .outOfFuel →
      lexFstring src quote (fuel + 1) parts lit i = lexFstring src quote fuel parts lit i
  | 0, src, quote, parts, lit, i, h => absurd rfl h
  | fuel + 1, src, quote, parts, lit, i, h => by
    rw [lexFstring] at h
    rw [lexFstring, lexFstring]
    cases hdrop : src.drop i with
    | nil => rfl
    | cons c rest =>
      rw [hdrop] at h
      dsimp only at h ⊢
      by_cases hquote : c = byte '"'
      · simp only [if_pos hquote]
      simp only [if_neg hquote] at h ⊢
      by_cases hdouble : (c = byte '\x7b' ∨ c = byte '\x7d') ∧ rest.head? = some c
      · simp only [if_pos hdouble] at h ⊢
        exact lexFstring_settled fuel _ _ _ _ _ h
      simp only [if_neg hdouble] at h ⊢
      by_cases hbrace : c = byte '\x7b'
      · simp only [if_pos hbrace] at h ⊢
        cases hhole : holeEnd 1 (i + 1) rest with
        | none => rfl
        | some j =>
          rw [hhole] at h
          refine bind_settled h (fun _ => rfl) fun hole h => ?_
          refine bind_settled h (lexFrom_settled fuel hole 0) fun inner h => ?_
          exact lexFstring_settled fuel _ _ _ _ _ h
      simp only [if_neg hbrace] at h ⊢
      cases hslash : c == byte '\\' with
      | false =>
        rw [hslash] at h
        exact lexFstring_settled fuel _ _ _ _ _ h
      | true =>
        rw [hslash] at h
        cases rest with
        | nil => exact lexFstring_settled fuel _ _ _ _ _ h
        | cons e rest => exact lexFstring_settled fuel _ _ _ _ _ h

end

theorem lexFrom_eq {fuel fuel' : Nat} {src : Bytes} {i : Nat} (hle : fuel ≤ fuel')
    (h : lexFrom src fuel i ≠ .error .outOfFuel) : lexFrom src fuel' i = lexFrom src fuel i := by
  induction hle with
  | refl => rfl
  | step _ ih =>
    rw [lexFrom_settled _ _ _ (by rw [ih]; exact h), ih]

theorem lexFstring_eq {fuel fuel' : Nat} {src : Bytes} {quote : Nat} {parts : List FPart} {lit : Bytes}
    {i : Nat} (hle : fuel ≤ fuel') (h : lexFstring src quote fuel parts lit i ≠ .error .outOfFuel) :
    lexFstring src quote fuel' parts lit i = lexFstring src quote fuel parts lit i := by
  induction hle with
  | refl => rfl
  | step _ ih =>
    rw [lexFstring_settled _ _ _ _ _ _ (by rw [ih]; exact h), ih]

def Starts (r : Bytes) : Prop := ∀ b, r.head? = some b → isCont b = false

def symbolic (c : UInt8) : Bool :=
  !(c == byte ' ' || c == byte '\t' || c == byte '\r' || c == byte '\n' || c == byte '#' ||
    c == byte '"' || isDigitByte c || isAlphaByte c || c == byte '_')

def isNumByte (b : UInt8) : Bool := isDigitByte b || b == byte '.'

/-- Before `r` the bytes `w` are one lexeme, with the token it leaves. -/
inductive Lexeme : Bytes → Option Tok → Bytes → Prop
  | blank {c : UInt8} (r : Bytes) (h : c = byte ' ' ∨ c = byte '\t' ∨ c = byte '\r') : Lexeme [c] none r
  | newline (r : Bytes) : Lexeme [byte '\n'] (some (.sym .newline)) r
  | comment {w r : Bytes} (hw : ∀ b ∈ w, (b != byte '\n') = true)
      (hr : ∀ b, r.head? = some b → b = byte '\n') : Lexeme (byte '#' :: w) none r
  | string {w s : Bytes} (r : Bytes) (h : stringBody 1 [] w = some (s, 1 + w.length)) :
      Lexeme (byte '"' :: w) (some (.str (textOf s))) r
  | fstring {fuel : Nat} {w : Bytes} {parts : List FPart} (r : Bytes)
      (h : lexFstring (byte 'f' :: byte '"' :: w) 1 fuel [] [] 2 = .ok (parts, 2 + w.length)) :
      Lexeme (byte 'f' :: byte '"' :: w) (some (.fStr parts)) r
  | number {c : UInt8} {w r : Bytes} {n : Float} (hc : isDigitByte c = true)
      (hw : ∀ b ∈ w, isNumByte b = true) (hr : ∀ b, r.head? = some b → isNumByte b = false)
      (h : F64.parse (textOf (c :: w)) = some n) : Lexeme (c :: w) (some (.num n)) r
  | word {c : UInt8} {w r : Bytes} (hc : isAlphaByte c = true ∨ c = byte '_')
      (hw : ∀ b ∈ w, isWordByte b = true) (hr : ∀ b, r.head? = some b → isWordByte b = false)
      (hf : c = byte 'f' → w = [] → r.head? ≠ some (byte '"')) :
      Lexeme (c :: w) (some (wordTok (textOf (c :: w)))) r
  | two {c d : UInt8} {s : Sym} {r : Bytes} (hc : symbolic c = true ∧ isCont c = false)
      (h : twoByte.lookup (textOf [c, d]) = some s) (hr : Starts r) : Lexeme [c, d] (some (.sym s)) r
  | one {c : UInt8} {s : Sym} {r : Bytes} (hc : symbolic c = true ∧ isCont c = false)
      (h : oneByte.lookup (Char.ofNat c.toNat) = some s)
      (hr : ∀ d r', r = d :: r' → Starts r' ∧ twoByte.lookup (textOf [c, d]) = none) :
      Lexeme [c] (some (.sym s)) r

theorem Lexeme.ne_nil {w r : Bytes} {t : Option Tok} (h : Lexeme w t r) : w ≠ [] := by
  cases h <;> simp

omit [External] in
theorem drop_past {src w r : Bytes} {i : Nat} (h : src.drop i = w ++ r) : src.drop (i + w.length) = r := by
  rw [← List.drop_drop, h, List.drop_left]

omit [External] in
theorem takeWhile_eq {p : UInt8 → Bool} {w r : Bytes} (hw : ∀ b ∈ w, p b = true)
    (hr : ∀ b, r.head? = some b → p b = false) : (w ++ r).takeWhile p = w := by
  rw [List.takeWhile_append_of_pos hw]
  cases r with
  | nil => simp
  | cons b r => simp [hr b rfl]

omit [External] in
theorem split_takeWhile (p : UInt8 → Bool) (bs : Bytes) :
    ∃ w r, bs = w ++ r ∧ bs.takeWhile p = w ∧ (∀ b ∈ w, p b = true) ∧
      ∀ b, r.head? = some b → p b = false := by
  refine ⟨bs.takeWhile p, bs.dropWhile p, (List.takeWhile_append_dropWhile).symm, rfl,
    fun b hb => List.all_eq_true.mp List.all_takeWhile b hb, ?_⟩
  intro b hb
  have := List.head?_dropWhile_not p bs
  rw [hb] at this
  exact this

omit [External] in
theorem last_of_all {P : UInt8 → Bool} {c : UInt8} {w : Bytes} (hc : P c = true) (hw : ∀ b ∈ w, P b = true) :
    ∃ w' b, c :: w = w' ++ [b] ∧ P b = true := by
  have hlast := List.dropLast_concat_getLast (List.cons_ne_nil c w)
  refine ⟨_, _, hlast.symm, ?_⟩
  rcases List.mem_cons.mp (List.getLast_mem (List.cons_ne_nil c w)) with hb | hb
  · rw [hb]
    exact hc
  · exact hw _ hb

omit [External] in
theorem stringBody_local {i j : Nat} {acc cs s : Bytes} (h : stringBody i acc cs = some (s, j)) :
    ∃ w r, cs = w ++ r ∧ j = i + w.length ∧
      ∀ i' r', stringBody i' acc (w ++ r') = some (s, i' + w.length) := by
  fun_induction stringBody i acc cs with
  | case1 => cases h
  | case2 i acc cs =>
    cases h
    exact ⟨[byte '"'], cs, rfl, rfl, fun i' r' => by
      rw [List.singleton_append, stringBody.eq_def]
      rfl⟩
  | case3 i acc e cs hne ih =>
    obtain ⟨w, r, rfl, rfl, hw⟩ := ih h
    refine ⟨byte '\\' :: e :: w, r, rfl, by simp only [List.length_cons]; omega, fun i' r' => ?_⟩
    rw [List.cons_append, List.cons_append, stringBody, if_neg hne, if_pos rfl, hw]
    simp only [List.length_cons]
    congr 2
    omega
  | case4 => cases h
  | case5 i acc c cs hquote hslash ih =>
    obtain ⟨w, r, rfl, rfl, hw⟩ := ih h
    refine ⟨c :: w, r, rfl, by simp only [List.length_cons]; omega, fun i' r' => ?_⟩
    rw [List.cons_append, stringBody.eq_def]
    simp only [if_neg hquote, if_neg hslash, hw, List.length_cons]
    congr 2
    omega

omit [External] in
theorem stringBody_last {i j : Nat} {acc w s : Bytes} (h : stringBody i acc w = some (s, j)) (hj : j = i + w.length) :
    ∃ w', w = w' ++ [byte '"'] := by
  fun_induction stringBody i acc w with
  | case1 => cases h
  | case2 i acc cs =>
    cases h
    have hnil : cs = [] := List.length_eq_zero_iff.mp (by rw [List.length_cons] at hj; omega)
    exact ⟨[], by rw [hnil]; rfl⟩
  | case3 i acc e cs hne ih =>
    obtain ⟨w', rfl⟩ := ih h (by simp only [List.length_cons] at hj; omega)
    exact ⟨byte '\\' :: e :: w', rfl⟩
  | case4 => cases h
  | case5 i acc c cs hquote hslash ih =>
    obtain ⟨w', rfl⟩ := ih h (by rw [List.length_cons] at hj; omega)
    exact ⟨c :: w', rfl⟩

omit [External] in
theorem holeEnd_local {depth j k : Nat} {cs : Bytes} (h : holeEnd depth j cs = some k) :
    ∃ w r, cs = w ++ r ∧ k = j + w.length ∧ ∀ j' r', holeEnd depth j' (w ++ r') = some (j' + w.length) := by
  fun_induction holeEnd depth j cs with
  | case1 j =>
    cases h
    exact ⟨[], _, rfl, rfl, fun j' r' => by simp [holeEnd]⟩
  | case2 => cases h
  | case3 j depth cs ih =>
    obtain ⟨w, r, rfl, rfl, hw⟩ := ih h
    refine ⟨byte '\x7b' :: w, r, rfl, by simp only [List.length_cons]; omega, fun j' r' => ?_⟩
    rw [List.cons_append, holeEnd, if_pos rfl, hw, List.length_cons]
    congr 1
    omega
  | case4 j depth cs hne ih =>
    obtain ⟨w, r, rfl, rfl, hw⟩ := ih h
    refine ⟨byte '\x7d' :: w, r, rfl, by simp only [List.length_cons]; omega, fun j' r' => ?_⟩
    rw [List.cons_append, holeEnd, if_neg hne, if_pos rfl, hw, List.length_cons]
    congr 1
    omega
  | case5 j depth c cs hne hne' ih =>
    obtain ⟨w, r, rfl, rfl, hw⟩ := ih h
    refine ⟨c :: w, r, rfl, by simp only [List.length_cons]; omega, fun j' r' => ?_⟩
    rw [List.cons_append, holeEnd, if_neg hne, if_neg hne', hw, List.length_cons]
    congr 1
    omega

omit [External] in
theorem slice_ok {src out : Bytes} {i j : Nat} (h : slice src i j = .ok out) :
    i ≤ j ∧ isCharBoundary src i = true ∧ isCharBoundary src j = true ∧ out = (src.drop i).take (j - i) := by
  unfold slice at h
  split at h
  next hok =>
    cases h
    exact ⟨hok.1, hok.2.1, hok.2.2, rfl⟩
  next => cases h

theorem lexFstring_end {fuel : Nat} {src : Bytes} {quote : Nat} {parts ps : List FPart} {lit : Bytes}
    {i ni : Nat} (h : lexFstring src quote fuel parts lit i = .ok (ps, ni)) :
    i < ni ∧ ni ≤ src.length := by
  have hfits := lexFstring_fits src quote (fuel + src.length + 1) parts lit i (by omega)
  rw [lexFstring_eq (Nat.le_add_right_of_le (Nat.le_add_right _ _)) (by rw [h]; nofun), h] at hfits
  exact ⟨hfits.1, hfits.2.1⟩

section
variable {src src' w r r' : Bytes} {i i' : Nat} (h : src.drop i = w ++ r) (h' : src'.drop i' = w ++ r')
include h h'

omit [External] in
theorem boundary_shift {k : Nat} (hk : k < w.length) :
    isCharBoundary src (i + k) = isCharBoundary src' (i' + k) := by
  have hcons : ∀ {x : Bytes}, (w ++ x).drop k = w[k] :: (w.drop (k + 1) ++ x) := by
    intro x
    rw [List.drop_append_of_le_length (Nat.le_of_lt hk), List.drop_eq_getElem_cons hk, List.cons_append]
  unfold isCharBoundary
  rw [← List.drop_drop, ← List.drop_drop, h, h', hcons, hcons]

omit [External] in
theorem slice_shift {k l : Nat} {out : Bytes} (hs : slice src (i + k) (i + l) = .ok out)
    (hl : l < w.length) : slice src' (i' + k) (i' + l) = .ok out := by
  unfold slice at hs ⊢
  split at hs
  next hok =>
    obtain ⟨hle, hk, hl'⟩ := hok
    rw [boundary_shift h h' (by omega)] at hk
    rw [boundary_shift h h' hl] at hl'
    have htake : ∀ {x : Bytes}, ((w ++ x).drop k).take (l - k) = (w.drop k).take (l - k) := by
      intro x
      rw [List.drop_append_of_le_length (by omega),
        List.take_append_of_le_length (by rw [List.length_drop]; omega)]
    rw [if_pos ⟨by omega, hk, hl'⟩, ← hs, ← List.drop_drop, ← List.drop_drop, h, h',
      show i + l - (i + k) = l - k by omega, show i' + l - (i' + k) = l - k by omega, htake, htake]
  · cases hs

end

theorem lexFstring_more {fuel : Nat} {src rest : Bytes} {quote : Nat} {parts ps : List FPart}
    {lit : Bytes} {i ni : Nat} {c : UInt8}
    (h : lexFstring src quote (fuel + 1) parts lit i = .ok (ps, ni)) (hsrc : src.drop i = c :: rest)
    (hquote : c ≠ byte '"') : i + 1 < ni := by
  rw [lexFstring, hsrc] at h
  dsimp only at h
  rw [if_neg hquote] at h
  split at h
  · have := lexFstring_end h
    omega
  split at h
  · split at h
    · cases h
    next j hhole =>
      have hj := holeEnd_end hhole
      obtain ⟨_, -, h⟩ := of_bind_ok h
      obtain ⟨_, -, h⟩ := of_bind_ok h
      have := lexFstring_end h
      omega
  split at h
  · have := lexFstring_end h
    omega
  · have := lexFstring_end h
    omega

theorem lexFstring_local : ∀ (fuel : Nat) {src src' : Bytes} {quote : Nat} (quote' : Nat)
    {parts ps : List FPart} {lit : Bytes} {i i' : Nat} {w r r' : Bytes},
    lexFstring src quote fuel parts lit i = .ok (ps, i + w.length) → src.drop i = w ++ r →
      src'.drop i' = w ++ r' → lexFstring src' quote' fuel parts lit i' = .ok (ps, i' + w.length)
  | 0, _, _, _, _, _, _, _, _, _, _, _, _, h, _, _ => by cases h
  | fuel + 1, src, src', quote, quote', parts, ps, lit, i, i', w, r, r', h, hsrc, hsrc' => by
    obtain ⟨hlt, -⟩ := lexFstring_end h
    obtain ⟨c, w, rfl⟩ : ∃ c v, w = c :: v := by
      cases w with
      | nil => exact absurd hlt (by simp)
      | cons c w => exact ⟨c, w, rfl⟩
    -- each turn reads its bytes inside `w`: the closing quote is still to come
    have hgo : ∀ {parts lit : _} {v u : Bytes}, c :: w = v ++ u →
        lexFstring src quote fuel parts lit (i + v.length) = .ok (ps, i + (c :: w).length) →
        lexFstring src' quote' fuel parts lit (i' + v.length) = .ok (ps, i' + (c :: w).length) := by
      intro parts lit v u hv hrun
      rw [hv, List.length_append, ← Nat.add_assoc] at hrun ⊢
      rw [hv, List.append_assoc] at hsrc hsrc'
      have hrest : src.drop (i + v.length) = u ++ r := drop_past hsrc
      have hrest' : src'.drop (i' + v.length) = u ++ r' := drop_past hsrc'
      exact lexFstring_local fuel quote' hrun hrest hrest'
    have hmore : c ≠ byte '"' → i + 1 < i + (c :: w).length := lexFstring_more h hsrc
    rw [lexFstring] at h ⊢
    rw [hsrc] at h
    rw [hsrc']
    dsimp only [List.cons_append] at h ⊢
    by_cases hquote : c = byte '"'
    · rw [if_pos hquote] at h ⊢
      simp only [Except.ok.injEq, Prod.mk.injEq, List.length_cons] at h ⊢
      exact ⟨h.1, by omega⟩
    obtain ⟨d, w, rfl⟩ : ∃ d v, w = d :: v := by
      cases w with
      | nil => exact absurd (hmore hquote) (by simp)
      | cons d w => exact ⟨d, w, rfl⟩
    rw [if_neg hquote] at h ⊢
    by_cases hdouble : (c = byte '\x7b' ∨ c = byte '\x7d') ∧ d = c
    · have hhead : ∀ x : Bytes, (c = byte '\x7b' ∨ c = byte '\x7d') ∧
          ((d :: w) ++ x).head? = some c := fun x => ⟨hdouble.1, by rw [hdouble.2]; rfl⟩
      rw [if_pos (hhead r)] at h
      rw [if_pos (hhead r')]
      exact hgo (v := [c, d]) rfl h
    have hhead : ∀ x : Bytes, ¬ ((c = byte '\x7b' ∨ c = byte '\x7d') ∧
        ((d :: w) ++ x).head? = some c) := fun x hx => hdouble ⟨hx.1, Option.some.inj hx.2⟩
    rw [if_neg (hhead r)] at h
    rw [if_neg (hhead r')]
    by_cases hbrace : c = byte '\x7b'
    · rw [if_pos hbrace] at h ⊢
      cases hhole : holeEnd 1 (i + 1) ((d :: w) ++ r) with
      | none =>
        rw [hhole] at h
        cases h
      | some j =>
        rw [hhole] at h
        obtain ⟨hole, hslice, h⟩ := of_bind_ok h
        obtain ⟨inner, hinner, h⟩ := of_bind_ok h
        have hend := (lexFstring_end h).1
        obtain ⟨v, x, hv, rfl, hlocal⟩ := holeEnd_local hhole
        obtain ⟨u, hu⟩ : ∃ u, d :: w = v ++ u := by
          rcases List.append_eq_append_iff.mp hv with ⟨as, has, -⟩ | ⟨u, hu, -⟩
          · have hlen := congrArg List.length has
            simp only [List.length_append, List.length_cons] at hlen hend
            have : as = [] := List.length_eq_zero_iff.mp (by omega)
            subst this
            exact ⟨[], by simpa using has.symm⟩
          · exact ⟨u, hu⟩
        have hlen := congrArg List.length hu
        simp only [List.length_append, List.length_cons] at hlen hend
        have hj : ∀ n, n + 1 + v.length = n + (c :: v).length := fun n => by
          rw [List.length_cons]
          omega
        have hcut : ∀ n, n + 1 + v.length - 1 = n + v.length := fun n => by omega
        have hhole' : holeEnd 1 (i' + 1) ((d :: w) ++ r') = some (i' + 1 + v.length) := by
          rw [hu, List.append_assoc]
          exact hlocal _ _
        rw [hcut] at hslice
        have hslice' := slice_shift hsrc hsrc' hslice (by simp only [List.length_cons]; omega)
        rw [hhole']
        show (slice src' (i' + 1) (i' + 1 + v.length - 1) >>= _) = _
        rw [hcut, hslice']
        show (lexFrom hole fuel 0 >>= _) = _
        rw [hinner]
        show lexFstring src' quote' fuel _ [] (i' + 1 + v.length) = _
        rw [hj] at h ⊢
        exact hgo (v := c :: v) (u := u) (by rw [hu, List.cons_append]) h
    · rw [if_neg hbrace] at h ⊢
      cases hslash : c == byte '\\' with
      | false =>
        rw [hslash] at h
        exact hgo (v := [c]) rfl h
      | true =>
        rw [hslash] at h
        exact hgo (v := [c, d]) rfl h

omit [External] in
theorem isWordByte_of_start {c : UInt8} (h : isAlphaByte c = true ∨ c = byte '_') :
    isWordByte c = true := by
  unfold isWordByte
  rcases h with h | h <;> simp [h]

omit [External] in
theorem not_digit_of_start {c : UInt8} (h : isAlphaByte c = true ∨ c = byte '_') :
    isDigitByte c = false := by
  have hbytes : (byte 'a').toNat = 97 ∧ (byte 'A').toNat = 65 ∧ (byte '9').toNat = 57 := by decide
  unfold isAlphaByte at h
  unfold isDigitByte
  simp only [Bool.or_eq_true, Bool.and_eq_true, decide_eq_true_eq, UInt8.le_iff_toNat_le] at h
  rw [Bool.and_eq_false_iff]
  right
  rw [decide_eq_false_iff_not, UInt8.le_iff_toNat_le]
  rcases h with h | rfl
  · omega
  · decide

omit [External] in
theorem starts_of_boundary {src r : Bytes} {k : Nat} (hd : src.drop k = r)
    (h : isCharBoundary src k = true) : Starts r := by
  intro b hb
  unfold isCharBoundary at h
  rw [hd] at h
  cases r with
  | nil => cases hb
  | cons c r =>
    cases hb
    simpa using h

omit [External] in
theorem char_ofNat_toNat {n : Nat} (h : n < 256) : (Char.ofNat n).toNat = n := by
  have hvalid : n.isValidChar := .inl (by omega)
  unfold Char.ofNat
  rw [dif_pos hvalid]
  unfold Char.ofNatAux Char.toNat
  simp

omit [External] in
theorem ascii_of_oneByte {c : UInt8} {s : Sym} (h : oneByte.lookup (Char.ofNat c.toNat) = some s) :
    c.toNat < 128 := by
  obtain ⟨pre, post, hmem, -⟩ := List.lookup_eq_some_iff.mp h
  have hascii : ∀ p ∈ oneByte, p.1.toNat < 128 := by decide
  have hlt := hascii (Char.ofNat c.toNat, s) (by
    rw [hmem]
    exact List.mem_append_right _ (List.mem_cons_self ..))
  dsimp only at hlt
  rwa [char_ofNat_toNat c.toNat_lt] at hlt

omit [External] in
theorem isCont_of_oneByte {c : UInt8} {s : Sym} (h : oneByte.lookup (Char.ofNat c.toNat) = some s) :
    isCont c = false := by
  have hlt := ascii_of_oneByte h
  rw [← Bool.not_eq_true, isCont_iff]
  omega

theorem lexeme_of_lexOne {src rest : Bytes} {fuel i ni : Nat} {c : UInt8} {t : Option Tok}
    (hsrc : src.drop i = c :: rest) (h : lexOne src fuel i c rest = .ok (t, ni)) :
    ∃ w r, c :: rest = w ++ r ∧ ni = i + w.length ∧ Lexeme w t r := by
  unfold lexOne at h
  by_cases hblank : c = byte ' ' ∨ c = byte '\t' ∨ c = byte '\r'
  · rw [if_pos hblank] at h
    cases h
    exact ⟨[c], rest, rfl, rfl, .blank _ hblank⟩
  rw [if_neg hblank] at h
  by_cases hline : c = byte '\n'
  · rw [if_pos hline] at h
    cases h
    rw [hline]
    exact ⟨[_], rest, rfl, rfl, .newline _⟩
  rw [if_neg hline] at h
  by_cases hhash : c = byte '#'
  · rw [if_pos hhash] at h
    cases h
    obtain ⟨w, r, hsplit, htake, hw, hr⟩ := split_takeWhile (· != byte '\n') rest
    refine ⟨c :: w, r, by rw [hsplit, List.cons_append], ?_, ?_⟩
    · rw [hhash, List.takeWhile_cons, if_pos (by decide), htake]
    · rw [hhash]
      exact .comment hw fun b hb => by simpa using hr b hb
  rw [if_neg hhash] at h
  by_cases hquote : c = byte '"'
  · rw [if_pos hquote] at h
    obtain ⟨⟨s, n⟩, hs, h⟩ := of_bind_ok h
    cases h
    unfold lexString at hs
    have hdrop : src.drop (i + 1) = rest := drop_past (w := [_]) hsrc
    rw [hdrop] at hs
    cases hbody : stringBody (i + 1) [] rest with
    | none =>
      rw [hbody] at hs
      cases hs
    | some p =>
      rw [hbody] at hs
      cases hs
      obtain ⟨w, r, rfl, hn, hlocal⟩ := stringBody_local hbody
      refine ⟨c :: w, r, rfl, by rw [hn, List.length_cons]; omega, ?_⟩
      rw [hquote]
      refine .string r ?_
      have := hlocal 1 []
      rwa [List.append_nil] at this
  rw [if_neg hquote] at h
  by_cases hf : c = byte 'f' ∧ rest.head? = some (byte '"')
  · rw [if_pos hf] at h
    obtain ⟨rfl, hhead⟩ := hf
    obtain ⟨⟨parts, n⟩, hs, h⟩ := of_bind_ok h
    cases h
    obtain ⟨rest, rfl⟩ : ∃ r, rest = byte '"' :: r := by
      cases rest with
      | nil => cases hhead
      | cons d rest =>
        cases hhead
        exact ⟨rest, rfl⟩
    obtain ⟨hlt, hle⟩ := lexFstring_end hs
    have hdrop : src.drop (i + 2) = rest := drop_past (w := [_, _]) hsrc
    have hlen : rest.length = src.length - (i + 2) := by rw [← hdrop, List.length_drop]
    obtain ⟨w, r, rfl, hw⟩ : ∃ w r, rest = w ++ r ∧ ni = i + 2 + w.length :=
      ⟨rest.take (ni - (i + 2)), rest.drop (ni - (i + 2)), (List.take_append_drop _ _).symm, by
        rw [List.length_take]
        omega⟩
    refine ⟨byte 'f' :: byte '"' :: w, r, rfl, by rw [hw]; simp only [List.length_cons]; omega, ?_⟩
    rw [hw] at hs
    have hown : (byte 'f' :: byte '"' :: w).drop 2 = w ++ [] := by simp
    exact .fstring r (lexFstring_local fuel 1 hs hdrop hown)
  rw [if_neg hf] at h
  by_cases hdigit : isDigitByte c = true
  · rw [if_pos hdigit] at h
    dsimp only at h
    obtain ⟨w, r, hsplit, htake, hw, hr⟩ := split_takeWhile isNumByte rest
    have hall : (c :: rest).takeWhile (fun b => isDigitByte b || b == byte '.') = c :: w := by
      rw [List.takeWhile_cons, if_pos (by simp [hdigit])]
      exact congrArg _ htake
    rw [hall] at h
    cases hparse : F64.parse (textOf (c :: w)) with
    | none =>
      rw [hparse] at h
      cases h
    | some n =>
      rw [hparse] at h
      cases h
      exact ⟨c :: w, r, by rw [hsplit, List.cons_append], rfl, .number hdigit hw hr hparse⟩
  rw [if_neg hdigit] at h
  by_cases hword : isAlphaByte c = true ∨ c = byte '_'
  · rw [if_pos hword] at h
    dsimp only at h
    obtain ⟨w, r, hsplit, htake, hw, hr⟩ := split_takeWhile isWordByte rest
    have hall : (c :: rest).takeWhile isWordByte = c :: w := by
      rw [List.takeWhile_cons, if_pos (isWordByte_of_start hword), htake]
    rw [hall] at h
    cases h
    refine ⟨c :: w, r, by rw [hsplit, List.cons_append], rfl, .word hword hw hr ?_⟩
    rintro rfl rfl hq
    exact hf ⟨rfl, by rw [hsplit]; exact hq⟩
  rw [if_neg hword] at h
  have hsym : symbolic c = true := by
    unfold symbolic
    simp only [Bool.not_eq_true', Bool.or_eq_false_iff, beq_eq_false_iff_ne]
    simp only [not_or, Bool.not_eq_true] at hblank hdigit hword
    exact ⟨⟨⟨⟨⟨⟨⟨⟨hblank.1, hblank.2.1⟩, hblank.2.2⟩, hline⟩, hhash⟩, hquote⟩, hdigit⟩, hword.1⟩, hword.2⟩
  cases rest with
  | nil =>
    have hlen := lt_of_drop hsrc
    rw [if_neg (by simp only [List.length_nil] at hlen; omega)] at h
    unfold lexSymbol at h
    have hnil : twoByte.lookup (textOf []) = none := by decide
    rw [hnil] at h
    cases hone : oneByte.lookup (Char.ofNat c.toNat) with
    | none =>
      rw [hone] at h
      cases h
    | some s =>
      rw [hone] at h
      cases h
      exact ⟨[c], [], rfl, rfl, .one ⟨hsym, isCont_of_oneByte hone⟩ hone nofun⟩
  | cons d rest =>
    have hlen := lt_of_drop hsrc
    rw [if_pos (by simp only [List.length_cons] at hlen; omega)] at h
    obtain ⟨two, hslice, h⟩ := of_bind_ok h
    unfold slice at hslice
    split at hslice
    next hok =>
      obtain ⟨-, hfirst, hlast⟩ := hok
      have hdrop : src.drop (i + 2) = rest := drop_past (w := [_, _]) hsrc
      have htwo : two = [c, d] := by
        cases hslice
        rw [hsrc, Nat.add_sub_cancel_left]
        rfl
      have hc : isCont c = false := starts_of_boundary hsrc hfirst c rfl
      have hr : Starts rest := starts_of_boundary hdrop hlast
      rw [htwo] at h
      unfold lexSymbol at h
      cases hlook : twoByte.lookup (textOf [c, d]) with
      | some s =>
        rw [hlook] at h
        cases h
        exact ⟨[c, d], rest, rfl, rfl, .two ⟨hsym, hc⟩ hlook hr⟩
      | none =>
        rw [hlook] at h
        cases hone : oneByte.lookup (Char.ofNat c.toNat) with
        | none =>
          rw [hone] at h
          cases h
        | some s =>
          rw [hone] at h
          cases h
          refine ⟨[c], d :: rest, rfl, rfl, .one ⟨hsym, hc⟩ hone ?_⟩
          rintro _ _ ⟨rfl, rfl⟩
          exact ⟨hr, hlook⟩
    · cases hslice

omit [External] in
theorem symbolic_ne {c : UInt8} (h : symbolic c = true) :
    ¬ (c = byte ' ' ∨ c = byte '\t' ∨ c = byte '\r') ∧ c ≠ byte '\n' ∧ c ≠ byte '#' ∧ c ≠ byte '"' ∧
      isDigitByte c = false ∧ ¬ (isAlphaByte c = true ∨ c = byte '_') := by
  unfold symbolic at h
  simp only [Bool.not_eq_true', Bool.or_eq_false_iff, beq_eq_false_iff_ne] at h
  obtain ⟨⟨⟨⟨⟨⟨⟨⟨h₁, h₂⟩, h₃⟩, h₄⟩, h₅⟩, h₆⟩, h₇⟩, h₈⟩, h₉⟩ := h
  simp [h₁, h₂, h₃, h₄, h₅, h₆, h₇, h₈, h₉]

theorem lexOne_symbolic {src rest : Bytes} {fuel i : Nat} {c : UInt8} (hc : symbolic c = true) :
    lexOne src fuel i c rest = if i + 1 < src.length then do
        let two ← slice src i (i + 2)
        lexSymbol src i c two
      else lexSymbol src i c [] := by
  obtain ⟨hblank, hline, hhash, hquote, hdigit, hword⟩ := symbolic_ne hc
  have hf : ¬ (c = byte 'f' ∧ rest.head? = some (byte '"')) := by
    rintro ⟨rfl, -⟩
    exact hword (.inl (by decide))
  unfold lexOne
  rw [if_neg hblank, if_neg hline, if_neg hhash, if_neg hquote, if_neg hf, if_neg (by simp [hdigit]),
    if_neg hword]

omit [External] in
theorem slice_two {src r : Bytes} {i : Nat} {c d : UInt8} (hsrc : src.drop i = c :: d :: r)
    (hc : isCont c = false) (hr : Starts r) : slice src i (i + 2) = .ok [c, d] := by
  have hdrop : src.drop (i + 2) = r := drop_past (w := [_, _]) hsrc
  have hlast : isCharBoundary src (i + 2) = true := by
    have hlen := congrArg List.length hsrc
    simp only [List.length_drop, List.length_cons] at hlen
    unfold isCharBoundary
    rw [hdrop]
    cases r with
    | nil =>
      simp only [List.length_nil] at hlen
      simp only [beq_iff_eq]
      omega
    | cons b r => simp [hr b rfl]
  have hfirst : isCharBoundary src i = true := by
    unfold isCharBoundary
    rw [hsrc]
    simp [hc]
  unfold slice
  rw [if_pos ⟨Nat.le_add_right i 2, hfirst, hlast⟩, hsrc, Nat.add_sub_cancel_left]
  rfl

theorem lexOne_of_lexeme {w r : Bytes} {t : Option Tok} (h : Lexeme w t r) :
    ∃ need c rest, w ++ r = c :: rest ∧ ∀ {fuel src i}, need ≤ fuel → src.drop i = w ++ r →
      lexOne src fuel i c rest = .ok (t, i + w.length) := by
  cases h with
  | @blank c _ hc =>
    refine ⟨0, c, r, rfl, fun _ _ => ?_⟩
    unfold lexOne
    rw [if_pos hc]
    rfl
  | newline =>
    refine ⟨0, byte '\n', r, rfl, fun _ _ => ?_⟩
    unfold lexOne
    rw [if_neg (by decide), if_pos rfl]
    rfl
  | @comment w _ hw hr =>
    refine ⟨0, byte '#', w ++ r, rfl, fun _ _ => ?_⟩
    unfold lexOne
    rw [if_neg (by decide), if_neg (by decide), if_pos rfl, List.takeWhile_cons, if_pos (by decide),
      takeWhile_eq hw (fun b hb => by simp [hr b hb])]
  | @string w s _ hs =>
    refine ⟨0, byte '"', w ++ r, rfl, fun {fuel src i} _ hsrc => ?_⟩
    unfold lexOne
    rw [if_neg (by decide), if_neg (by decide), if_neg (by decide), if_pos rfl]
    have hdrop : src.drop (i + 1) = w ++ r := drop_past (w := [_]) hsrc
    obtain ⟨w', r', hw', hlen, hlocal⟩ := stringBody_local hs
    have hnil : r' = [] := by
      have := congrArg List.length hw'
      rw [List.length_append] at this
      exact List.length_eq_zero_iff.mp (by omega)
    rw [hnil, List.append_nil] at hw'
    unfold lexString
    rw [hdrop, hw', hlocal]
    show Except.ok (_, i + 1 + w'.length) = _
    rw [List.length_cons]
    congr 2
    omega
  | @fstring fuel w parts _ hs =>
    refine ⟨fuel, byte 'f', byte '"' :: (w ++ r), rfl, fun {fuel src i} hfuel hsrc => ?_⟩
    have hdrop : src.drop (i + 2) = w ++ r := drop_past (w := [_, _]) hsrc
    rw [lexOne_fstring _ _ rfl,
      lexFstring_local fuel (i + 1) ((lexFstring_eq hfuel (by rw [hs]; nofun)).trans hs) (r := []) (by simp) hdrop]
    show Except.ok (_, i + 2 + w.length) = _
    simp only [List.length_cons]
    congr 2
    omega
  | @number c w _ n hc hw hr hn =>
    refine ⟨0, c, w ++ r, rfl, fun _ _ => ?_⟩
    have hne : ∀ {x : Char}, isDigitByte (byte x) = false → c ≠ byte x := by
      rintro x hx rfl
      rw [hc] at hx
      cases hx
    unfold lexOne
    rw [if_neg (by
        rintro (h | h | h)
        · exact hne (by decide) h
        · exact hne (by decide) h
        · exact hne (by decide) h),
      if_neg (hne (by decide)), if_neg (hne (by decide)), if_neg (hne (by decide)),
      if_neg (fun h => hne (by decide) h.1), if_pos hc]
    dsimp only
    have hall : (c :: (w ++ r)).takeWhile (fun b => isDigitByte b || b == byte '.') = c :: w := by
      rw [List.takeWhile_cons, if_pos (by simp [hc])]
      exact congrArg _ (takeWhile_eq hw hr)
    rw [hall, hn]
  | @word c w _ hc hw hr hf =>
    refine ⟨0, c, w ++ r, rfl, fun _ _ => ?_⟩
    have hne : ∀ {x : Char}, isWordByte (byte x) = false → c ≠ byte x := by
      rintro x hx rfl
      rw [isWordByte_of_start hc] at hx
      cases hx
    have hquote : ¬ (c = byte 'f' ∧ (w ++ r).head? = some (byte '"')) := by
      rintro ⟨hcf, hhead⟩
      cases w with
      | nil => exact hf hcf rfl hhead
      | cons b w =>
        cases hhead
        exact absurd (hw _ (List.mem_cons_self ..)) (by decide)
    unfold lexOne
    rw [if_neg (by
        rintro (h | h | h)
        · exact hne (by decide) h
        · exact hne (by decide) h
        · exact hne (by decide) h),
      if_neg (hne (by decide)), if_neg (hne (by decide)), if_neg (hne (by decide)), if_neg hquote,
      if_neg (by simp [not_digit_of_start hc]), if_pos hc]
    dsimp only
    rw [List.takeWhile_cons, if_pos (isWordByte_of_start hc), takeWhile_eq hw hr]
  | @two c d s _ hc hs hr =>
    refine ⟨0, c, d :: r, rfl, fun {fuel src i} _ hsrc => ?_⟩
    have hlen : i + 1 + (d :: r).length = src.length := lt_of_drop hsrc
    rw [lexOne_symbolic hc.1, if_pos (by simp only [List.length_cons] at hlen; omega),
      slice_two hsrc hc.2 hr]
    show lexSymbol src i c [c, d] = _
    unfold lexSymbol
    rw [hs]
    rfl
  | @one c s _ hc hs hr =>
    refine ⟨0, c, r, rfl, fun {fuel src i} _ hsrc => ?_⟩
    have hlen : i + 1 + r.length = src.length := lt_of_drop hsrc
    rw [lexOne_symbolic hc.1]
    have hnone : ∀ two : Bytes, twoByte.lookup (textOf two) = none →
        lexSymbol src i c two = .ok (some (.sym s), i + 1) := by
      intro two htwo
      unfold lexSymbol
      rw [htwo, hs]
    cases r with
    | nil =>
      rw [if_neg (by simp only [List.length_nil] at hlen; omega)]
      exact hnone [] (by decide)
    | cons d r =>
      obtain ⟨hstarts, htwo⟩ := hr d r rfl
      rw [if_pos (by simp only [List.length_cons] at hlen; omega), slice_two hsrc hc.2 hstarts]
      exact hnone [c, d] htwo

/-- Before `r`, the bytes `w` at offset `i` are lexemes that leave the tokens `ts`. -/
inductive Path : Nat → Bytes → List Spanned → Bytes → Prop
  | nil (i : Nat) (r : Bytes) : Path i [] [] r
  | cons {i : Nat} {w w' r : Bytes} {t : Option Tok} {ts : List Spanned} (h : Lexeme w t (w' ++ r))
      (tail : Path (i + w.length) w' ts r) : Path i (w ++ w') (spanned i t ++ ts) r

theorem Path.one {i : Nat} {w r : Bytes} {t : Option Tok} (h : Lexeme w t r) :
    Path i w (spanned i t) r := by
  have h : Lexeme w t ([] ++ r) := h
  have hone := Path.cons h (.nil (i + w.length) r)
  rwa [List.append_nil, List.append_nil] at hone

theorem Path.append {i : Nat} {w w' r : Bytes} {ts ts' : List Spanned} (h : Path i w ts (w' ++ r))
    (h' : Path (i + w.length) w' ts' r) : Path i (w ++ w') (ts ++ ts') r := by
  generalize hr : w' ++ r = x at h
  induction h with
  | nil i _ => exact h'
  | @cons i v v' _ t ts hlex _ ih =>
    subst hr
    rw [List.append_assoc, List.append_assoc]
    refine .cons (by rw [List.append_assoc]; exact hlex) (ih ?_ rfl)
    rwa [Nat.add_assoc, ← List.length_append]

theorem Path.shift {i : Nat} {w r : Bytes} {ts : List Spanned} (h : Path i w ts r) (j : Nat) :
    Path (j + i) w (ts.map fun t => (t.1, j + t.2)) r := by
  induction h with
  | nil i r => exact .nil _ _
  | @cons i v v' r t ts hlex _ ih =>
    have hsp : (spanned i t).map (fun t => (t.1, j + t.2)) = spanned (j + i) t := by
      cases t <;> rfl
    rw [List.map_append, hsp]
    exact .cons hlex (by rwa [Nat.add_assoc])

theorem lexFrom_of_path {i : Nat} {w r : Bytes} {ts : List Spanned} (h : Path i w ts r) :
    ∀ {src : Bytes} {fuel : Nat} {res : Except Fault (List Spanned)}, src.drop i = w ++ r →
      lexFrom src fuel (i + w.length) = res → res ≠ .error .outOfFuel →
      ∃ fuel, lexFrom src fuel i = res.map (ts ++ ·) := by
  induction h with
  | nil i r =>
    intro src fuel res _ hrun _
    refine ⟨fuel, hrun.trans ?_⟩
    cases res <;> rfl
  | @cons i v v' r t ts hlex _ ih =>
    intro src fuel res hsrc hrun hne
    rw [List.append_assoc] at hsrc
    have hdrop : src.drop (i + v.length) = v' ++ r := drop_past hsrc
    obtain ⟨fuel', hrest⟩ := ih hdrop (by rwa [Nat.add_assoc, ← List.length_append]) hne
    have hne' : lexFrom src fuel' (i + v.length) ≠ .error .outOfFuel := by
      rw [hrest]
      cases res with
      | ok ts' => nofun
      | error f => exact hne
    obtain ⟨need, c, rest, hcons, hone⟩ := lexOne_of_lexeme hlex
    refine ⟨max need fuel' + 1, ?_⟩
    rw [lexFrom_succ _ (hsrc.trans hcons), hone (Nat.le_max_left _ _) hsrc]
    show (lexFrom src (max need fuel') (i + v.length) >>= _) = _
    rw [lexFrom_eq (Nat.le_max_right _ _) hne', hrest]
    cases res with
    | error f => rfl
    | ok ts' =>
      show Except.ok (spanned i t ++ (ts ++ ts')) = Except.ok (spanned i t ++ ts ++ ts')
      rw [List.append_assoc]

theorem path_of_lexFrom : ∀ (fuel : Nat) {src : Bytes} {i : Nat} {ts : List Spanned},
    lexFrom src fuel i = .ok ts → i ≤ src.length →
      ∃ ts', ts = ts' ++ [(.sym .newline, src.length)] ∧ Path i (src.drop i) ts' []
  | 0, _, _, _, h, _ => by cases h
  | fuel + 1, src, i, ts, h, hi => by
    cases hdrop : src.drop i with
    | nil =>
      rw [lexFrom_end _ hdrop] at h
      cases h
      exact ⟨[], rfl, .nil _ _⟩
    | cons c rest =>
      rw [lexFrom_succ _ hdrop] at h
      obtain ⟨⟨t, ni⟩, hone, h⟩ := of_bind_ok h
      obtain ⟨ts₁, hrest, h⟩ := of_bind_ok h
      cases h
      obtain ⟨w, r, hsplit, rfl, hlex⟩ := lexeme_of_lexOne hdrop hone
      have hlen := congrArg List.length (hdrop.trans hsplit)
      rw [List.length_drop, List.length_append] at hlen
      have hr : src.drop (i + w.length) = r := drop_past (hdrop.trans hsplit)
      have hw := List.length_pos_iff.mpr hlex.ne_nil
      obtain ⟨ts', rfl, hpath⟩ := path_of_lexFrom fuel hrest (by omega)
      rw [hr] at hpath
      refine ⟨spanned i t ++ ts', (List.append_assoc ..).symm, ?_⟩
      rw [hsplit]
      exact .cons (by rwa [List.append_nil]) hpath

theorem lex_eq {src : Bytes} {fuel : Nat} {res : Except Fault (List Spanned)} (h : lexFrom src fuel 0 = res)
    (hne : res ≠ .error .outOfFuel) : lex src = res := by
  subst h
  unfold lex
  rw [← lexFrom_eq (Nat.le_max_left _ fuel) (lex_ne_outOfFuel src), lexFrom_eq (Nat.le_max_right _ _) hne]

theorem lex_iff {src : Bytes} {toks : List Spanned} :
    lex src = .ok toks ↔ ∃ ts, toks = ts ++ [(.sym .newline, src.length)] ∧ Path 0 src ts [] := by
  constructor
  · intro h
    exact path_of_lexFrom _ h (Nat.zero_le _)
  · rintro ⟨ts, rfl, hpath⟩
    have hend : lexFrom src 1 (0 + src.length) = .ok [(.sym .newline, src.length)] :=
      lexFrom_end 0 (by simp)
    obtain ⟨fuel, hrun⟩ := lexFrom_of_path hpath (by simp) hend nofun
    exact lex_eq hrun nofun

end Vejas.Vjs
