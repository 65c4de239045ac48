import Mathlib.Logic.Relation
import Vejas.Vjs.Tokens

/-! The slices of the lexer. It walks over bytes and cuts the text at byte offsets, and all its
cuts but one are next to a byte below 128, which is a character of its own. The two bytes it looks
at for a symbol may end inside a character: these are the texts it panics on. -/

namespace Vejas.Vjs
open Rust
variable [External]

def Whole (b : Bytes) : Prop := ∃ cs : List Char, b = utf8 cs

omit [External] in
theorem whole_bytesOf (s : String) : Whole (bytesOf s) := ⟨s.toList, bytesOf_eq_utf8 s⟩

omit [External] in
theorem Whole.starts {b : Bytes} (h : Whole b) : Starts b := by
  obtain ⟨cs, rfl⟩ := h
  intro x hx
  cases hb : utf8 cs with
  | nil =>
    rw [hb] at hx
    cases hx
  | cons y ys =>
    rw [hb] at hx
    cases hx
    exact utf8_head hb

omit [External] in
theorem boundary_iff {src r : Bytes} {i : Nat} (hd : src.drop i = r) (hi : i ≤ src.length) :
    isCharBoundary src i = true ↔ Starts r := by
  constructor
  · exact starts_of_boundary hd
  · intro hs
    unfold isCharBoundary
    rw [hd]
    cases r with
    | nil =>
      have hlen := congrArg List.length hd
      rw [List.length_drop, List.length_nil] at hlen
      simp only [beq_iff_eq]
      omega
    | cons b r => simp [hs b rfl]

omit [External] in
theorem Whole.split {w r : Bytes} (h : Whole (w ++ r)) (hr : Starts r) : Whole w ∧ Whole r := by
  obtain ⟨cs, hcs⟩ := h
  have hb : isCharBoundary (utf8 cs) w.length = true := by
    refine (boundary_iff (r := r) ?_ ?_).mpr hr
    · rw [← hcs, List.drop_left]
    · rw [← hcs, List.length_append]
      exact Nat.le_add_right _ _
  obtain ⟨as, bs, rfl, hlen⟩ := split_at_boundary hb
  rw [utf8_append] at hcs
  obtain ⟨hw, hr⟩ := List.append_inj hcs hlen
  exact ⟨⟨as, hw⟩, ⟨bs, hr⟩⟩

omit [External] in
theorem starts_ascii {c : UInt8} (r : Bytes) (hc : c.toNat < 128) : Starts (c :: r) := by
  intro b hb
  cases hb
  rw [← Bool.not_eq_true, isCont_iff]
  omega

omit [External] in
theorem Whole.after_ascii {w r : Bytes} {c : UInt8} (h : Whole (w ++ c :: r)) (hc : c.toNat < 128) :
    Whole r := by
  obtain ⟨-, ⟨cs, hcs⟩⟩ := h.split (starts_ascii r hc)
  cases cs with
  | nil => cases hcs
  | cons x cs =>
    rw [utf8_cons] at hcs
    by_cases hx : x.toNat < 128
    · rw [encode_ascii hx] at hcs
      cases hcs
      exact ⟨cs, rfl⟩
    · obtain ⟨b, bs, henc, -, -⟩ := encode_cons x
      rw [henc] at hcs
      cases hcs
      have := encode_high (Nat.le_of_not_lt hx) (henc ▸ List.mem_cons_self ..)
      omega

omit [External] in
theorem Whole.drop {src : Bytes} {i : Nat} (h : Whole src) (hi : isCharBoundary src i = true) :
    Whole (src.drop i) := by
  have hs : Starts (src.drop i) := starts_of_boundary rfl hi
  rw [← List.take_append_drop i src] at h
  exact (h.split hs).2

omit [External] in
theorem Whole.boundary_zero {src : Bytes} (h : Whole src) : isCharBoundary src 0 = true :=
  (boundary_iff rfl (Nat.zero_le _)).mpr h.starts

omit [External] in
theorem Whole.around_ascii {src r : Bytes} {c : UInt8} {i : Nat} (h : Whole src) (hd : src.drop i = c :: r)
    (hc : c.toNat < 128) : isCharBoundary src i = true ∧ isCharBoundary src (i + 1) = true := by
  have hlen := lt_of_drop hd
  have hr : Whole r := by
    rw [← List.take_append_drop i src, hd] at h
    exact h.after_ascii hc
  have hd' : src.drop (i + 1) = r := drop_past (w := [_]) hd
  exact ⟨(boundary_iff hd (by omega)).mpr (starts_ascii r hc), (boundary_iff hd' (by omega)).mpr hr.starts⟩

omit [External] in
theorem errAt_panic_iff {src : Bytes} (h : Whole src) (pos : Nat) (msg : String) :
    errAt pos src msg = .panic ↔ isCharBoundary src (min pos src.length) = false := by
  unfold errAt slice
  by_cases hb : isCharBoundary src (min pos src.length) = true
  · rw [if_pos ⟨Nat.zero_le _, h.boundary_zero, hb⟩]
    simp [hb]
  · rw [if_neg fun hok => hb hok.2.2]
    simpa using hb

omit [External] in
theorem boundary_min {src : Bytes} {pos : Nat} (h : isCharBoundary src pos = true) :
    isCharBoundary src (min pos src.length) = true := by
  by_cases hle : pos ≤ src.length
  · rwa [Nat.min_eq_left hle]
  · unfold isCharBoundary at h
    rw [List.drop_eq_nil_of_le (by omega)] at h
    simp only [beq_iff_eq] at h
    omega

omit [External] in
theorem errAt_ne_panic {src : Bytes} (h : Whole src) {pos : Nat} (msg : String)
    (hb : isCharBoundary src pos = true) : errAt pos src msg ≠ .panic := by
  intro hp
  rw [errAt_panic_iff h, boundary_min hb] at hp
  cases hp

theorem lexFstring_last : ∀ (fuel : Nat) {src : Bytes} {quote : Nat} {parts ps : List FPart} {lit : Bytes}
    {i ni : Nat}, lexFstring src quote fuel parts lit i = .ok (ps, ni) →
      ∃ r, src.drop (ni - 1) = byte '"' :: r
  | 0, _, _, _, _, _, _, _, h => by cases h
  | fuel + 1, src, quote, parts, ps, lit, i, ni, h => by
    rw [lexFstring] at h
    split at h
    · cases h
    next c rest hdrop =>
      split at h
      next hquote =>
        cases h
        exact ⟨rest, by rw [← hquote]; exact hdrop⟩
      split at h
      · exact lexFstring_last fuel h
      split at h
      · split at h
        · cases h
        · obtain ⟨_, -, h⟩ := of_bind_ok h
          obtain ⟨_, -, h⟩ := of_bind_ok h
          exact lexFstring_last fuel h
      split at h
      · exact lexFstring_last fuel h
      · exact lexFstring_last fuel h

omit [External] in
theorem ascii_of_all {P : UInt8 → Bool} (hP : ∀ b, P b = true → b.toNat < 128) {c : UInt8} {w : Bytes}
    (hc : P c = true) (hw : ∀ b ∈ w, P b = true) : ∃ w' b, c :: w = w' ++ [b] ∧ b.toNat < 128 := by
  obtain ⟨w', b, hlast, hb⟩ := last_of_all hc hw
  exact ⟨w', b, hlast, hP b hb⟩

omit [External] in
theorem isDigitByte_ascii {b : UInt8} (h : isDigitByte b = true) : b.toNat < 128 := by
  have hnine : (byte '9').toNat = 57 := by decide
  simp only [isDigitByte, Bool.and_eq_true, decide_eq_true_eq, UInt8.le_iff_toNat_le] at h
  omega

omit [External] in
theorem isNumByte_ascii (b : UInt8) (h : isNumByte b = true) : b.toNat < 128 := by
  simp only [isNumByte, Bool.or_eq_true, beq_iff_eq] at h
  rcases h with h | rfl
  · exact isDigitByte_ascii h
  · decide

omit [External] in
theorem isWordByte_ascii (b : UInt8) (h : isWordByte b = true) : b.toNat < 128 := by
  have hz : (byte 'z').toNat = 122 ∧ (byte 'Z').toNat = 90 := by decide
  simp only [isWordByte, isAlphaByte, Bool.or_eq_true, Bool.and_eq_true, decide_eq_true_eq,
    UInt8.le_iff_toNat_le, beq_iff_eq] at h
  rcases h with (h | h) | rfl
  · omega
  · exact isDigitByte_ascii h
  · decide

theorem Lexeme.whole_rest {w r : Bytes} {t : Option Tok} (h : Lexeme w t r) (hw : Whole (w ++ r)) :
    Whole r := by
  have hlast : ∀ {w' : Bytes} {b : UInt8}, w = w' ++ [b] → b.toNat < 128 → Whole r := by
    rintro w' b rfl hb
    rw [List.append_assoc] at hw
    exact hw.after_ascii hb
  cases h with
  | blank _ hc =>
    refine hlast (List.nil_append _).symm ?_
    rcases hc with rfl | rfl | rfl
    · decide
    · decide
    · decide
  | newline => exact hlast (List.nil_append _).symm (by decide)
  | comment _ hr =>
    refine (hw.split ?_).2
    intro b hb
    rw [hr b hb]
    decide
  | string _ hs =>
    obtain ⟨w', rfl⟩ := stringBody_last hs rfl
    have heq : byte '"' :: (w' ++ [byte '"']) = (byte '"' :: w') ++ [byte '"'] := rfl
    exact hlast heq (by decide)
  | @fstring fuel v parts _ hs =>
    obtain ⟨r', hr'⟩ := lexFstring_last fuel hs
    have hlen := lt_of_drop hr'
    simp only [List.length_cons] at hlen
    have hnil : r' = [] := List.length_eq_zero_iff.mp (by omega)
    subst hnil
    have hsplit := List.take_append_drop (2 + v.length - 1) (byte 'f' :: byte '"' :: v)
    rw [hr'] at hsplit
    exact hlast hsplit.symm (by decide)
  | number hc hall =>
    obtain ⟨w', b, heq, hb⟩ := ascii_of_all isNumByte_ascii (by rw [isNumByte, hc]; rfl) hall
    exact hlast heq hb
  | word hc hall =>
    obtain ⟨w', b, heq, hb⟩ := ascii_of_all isWordByte_ascii (isWordByte_of_start hc) hall
    exact hlast heq hb
  | two _ _ hr => exact (hw.split hr).2
  | one _ hs => exact hlast (List.nil_append _).symm (ascii_of_oneByte hs)

theorem Path.boundaries {i : Nat} {w r : Bytes} {ts : List Spanned} (h : Path i w ts r) {src : Bytes}
    (hsrc : src.drop i = w ++ r) (hi : i ≤ src.length) (hw : Whole (w ++ r)) :
    ∀ t ∈ ts, isCharBoundary src t.2 = true := by
  induction h with
  | nil => nofun
  | @cons i v v' r t ts hlex _ ih =>
    intro sp hsp
    rw [List.append_assoc] at hsrc hw
    rcases List.mem_append.mp hsp with hsp | hsp
    · obtain ⟨_, -, rfl⟩ := List.mem_map.mp hsp
      exact (boundary_iff hsrc hi).mpr hw.starts
    · have hlen := congrArg List.length hsrc
      rw [List.length_drop, List.length_append] at hlen
      have hv := List.length_pos_iff.mpr hlex.ne_nil
      exact ih (drop_past hsrc) (by omega) (hlex.whole_rest hw) sp hsp

def Hole (inner r : Bytes) : Prop :=
  (inner ++ byte '\x7d' :: r).head? ≠ some (byte '\x7b') ∧
    holeEnd 1 0 (inner ++ byte '\x7d' :: r) = some (inner.length + 1)

/-- One turn of the loop over an f-string takes it from the first text to the second. -/
inductive Passes : Bytes → Bytes → Prop
  | double {c : UInt8} (r : Bytes) (hc : c = byte '\x7b' ∨ c = byte '\x7d') : Passes (c :: c :: r) r
  | hole {inner r : Bytes} {toks : List Spanned} (h : Hole inner r) (hlex : lex inner = .ok toks) :
      Passes (byte '\x7b' :: (inner ++ byte '\x7d' :: r)) r
  | escape (e : UInt8) (r : Bytes) : Passes (byte '\\' :: e :: r) r
  | plain {c : UInt8} {r : Bytes} (hc : c ≠ byte '"' ∧ c ≠ byte '\x7b')
      (hdouble : c = byte '\x7d' → r.head? ≠ some c) (hslash : c = byte '\\' → r = []) : Passes (c :: r) r

omit [External] in
theorem holeEnd_close {depth j k : Nat} {cs : Bytes} (h : holeEnd depth j cs = some k) (hd : 0 < depth) :
    ∃ inner r, cs = inner ++ byte '\x7d' :: r ∧ k = j + inner.length + 1 := by
  fun_induction holeEnd depth j cs with
  | case1 => omega
  | case2 => cases h
  | case3 depth j cs ih =>
    obtain ⟨inner, r, rfl, rfl⟩ := ih h (by omega)
    exact ⟨byte '\x7b' :: inner, r, rfl, by rw [List.length_cons]; omega⟩
  | case4 depth j cs hne ih =>
    cases depth with
    | zero =>
      rw [holeEnd] at h
      cases h
      exact ⟨[], cs, rfl, rfl⟩
    | succ depth =>
      obtain ⟨inner, r, rfl, rfl⟩ := ih h (by omega)
      exact ⟨byte '\x7d' :: inner, r, rfl, by rw [List.length_cons]; omega⟩
  | case5 depth j c cs hne hne' ih =>
    obtain ⟨inner, r, rfl, rfl⟩ := ih h (by omega)
    exact ⟨c :: inner, r, rfl, by rw [List.length_cons]; omega⟩

omit [External] in
theorem holeEnd_shift {depth j k : Nat} {cs : Bytes} (h : holeEnd depth j cs = some (j + k)) (j' : Nat) :
    holeEnd depth j' cs = some (j' + k) := by
  obtain ⟨w, r, rfl, hk, hlocal⟩ := holeEnd_local h
  rw [hlocal]
  congr 1
  omega

omit [External] in
theorem hole_of_holeEnd {j k : Nat} {rest : Bytes} (h : holeEnd 1 j rest = some k)
    (hopen : rest.head? ≠ some (byte '\x7b')) :
    ∃ inner r, rest = inner ++ byte '\x7d' :: r ∧ k = j + inner.length + 1 ∧ Hole inner r := by
  obtain ⟨inner, r, rfl, rfl⟩ := holeEnd_close h (Nat.zero_lt_one)
  refine ⟨inner, r, rfl, rfl, hopen, ?_⟩
  rw [Nat.add_assoc] at h
  rw [holeEnd_shift h, Nat.zero_add]

omit [External] in
theorem drop_hole {src inner r : Bytes} {i : Nat} {b c : UInt8} (hd : src.drop i = b :: (inner ++ c :: r)) :
    src.drop (i + (inner.length + 2)) = r := by
  have hd' : src.drop (i + 1 + inner.length) = c :: r := drop_past (drop_past (w := [_]) hd)
  rw [show i + (inner.length + 2) = i + 1 + inner.length + 1 by omega]
  exact drop_past (w := [_]) hd'

omit [External] in
theorem slice_between {src inner r : Bytes} {i : Nat} (h : Whole src)
    (hd : src.drop i = byte '\x7b' :: (inner ++ byte '\x7d' :: r)) :
    slice src (i + 1) (i + 1 + inner.length) = .ok inner := by
  have hd' : src.drop (i + 1) = inner ++ byte '\x7d' :: r := drop_past (w := [_]) hd
  have hclose : src.drop (i + 1 + inner.length) = byte '\x7d' :: r := drop_past hd'
  unfold slice
  rw [if_pos ⟨Nat.le_add_right _ _, (h.around_ascii hd (by decide)).2, (h.around_ascii hclose (by decide)).1⟩,
    hd', Nat.add_sub_cancel_left, List.take_left]

theorem lexFstring_hole {src inner r : Bytes} {i : Nat} (hw : Whole src)
    (hd : src.drop i = byte '\x7b' :: (inner ++ byte '\x7d' :: r)) (h : Hole inner r)
    (quote fuel : Nat) (parts : List FPart) (lit : Bytes) :
    lexFstring src quote (fuel + 1) parts lit i = (do
      let toks ← lexFrom inner fuel 0
      lexFstring src quote fuel (flush lit parts ++ [.expr toks]) [] (i + (inner.length + 2))) := by
  have hend : holeEnd 1 (i + 1) (inner ++ byte '\x7d' :: r) = some (i + 1 + (inner.length + 1)) :=
    holeEnd_shift (j := 0) (by rw [Nat.zero_add]; exact h.2) _
  rw [lexFstring, hd]
  dsimp only
  rw [if_neg (by decide), if_neg fun hb => h.1 hb.2, if_pos rfl, hend]
  show (slice src (i + 1) (i + 1 + (inner.length + 1) - 1) >>= _) = _
  rw [show i + 1 + (inner.length + 1) - 1 = i + 1 + inner.length by omega, slice_between hw hd,
    show i + (inner.length + 2) = i + 1 + (inner.length + 1) by omega]
  rfl

theorem Passes.turn {src v r : Bytes} {i : Nat} (h : Passes v r) (hw : Whole src) (hd : src.drop i = v)
    (quote : Nat) : ∃ need k, src.drop (i + k) = r ∧ ∀ fuel parts lit, need ≤ fuel → ∃ parts' lit',
      lexFstring src quote (fuel + 1) parts lit i = lexFstring src quote fuel parts' lit' (i + k) := by
  cases h with
  | @double c _ hc =>
    refine ⟨0, 2, drop_past (w := [_, _]) hd, fun fuel parts lit _ => ⟨parts, c :: lit, ?_⟩⟩
    rw [lexFstring, hd]
    dsimp only
    rw [if_neg (by rcases hc with rfl | rfl <;> decide), if_pos ⟨hc, rfl⟩]
  | @hole inner _ toks hh hlex =>
    refine ⟨inner.length + 1, inner.length + 2, drop_hole hd, fun fuel parts lit hfuel => ?_⟩
    refine ⟨flush lit parts ++ [.expr toks], [], ?_⟩
    unfold lex at hlex
    rw [lexFstring_hole hw hd hh, lexFrom_eq hfuel (by rw [hlex]; nofun), hlex]
    rfl
  | escape e =>
    refine ⟨0, 2, drop_past (w := [_, _]) hd, fun fuel parts lit _ => ⟨parts, unescape e :: lit, ?_⟩⟩
    rw [lexFstring, hd]
    rfl
  | @plain c _ hc hdouble hslash =>
    refine ⟨0, 1, drop_past (w := [_]) hd, fun fuel parts lit _ => ⟨parts, c :: lit, ?_⟩⟩
    have hnot : ¬ ((c = byte '\x7b' ∨ c = byte '\x7d') ∧ r.head? = some c) := by
      rintro ⟨h | h, hr⟩
      · exact hc.2 h
      · exact hdouble h hr
    rw [lexFstring, hd]
    dsimp only
    rw [if_neg hc.1, if_neg hnot, if_neg hc.2]
    split
    next hc' =>
      cases hslash (beq_iff_eq.mp hc')
    · rfl

/-- The lexer comes to a byte it looks up among the symbols, the byte after it is not the last of its
character, in the text itself or in the text of a hole. -/
inductive Splits : Bytes → Prop
  | here {w r : Bytes} {c d : UInt8} {ts : List Spanned} (path : Path 0 w ts (c :: d :: r))
      (hc : symbolic c = true) (hr : ¬ Starts r) : Splits (w ++ c :: d :: r)
  | inside {w v inner r : Bytes} {ts : List Spanned} (path : Path 0 w ts (byte 'f' :: byte '"' :: v))
      (walk : Relation.ReflTransGen Passes v (byte '\x7b' :: (inner ++ byte '\x7d' :: r)))
      (hole : Hole inner r) (splits : Splits inner) : Splits (w ++ byte 'f' :: byte '"' :: v)

theorem Splits.cons {w r : Bytes} {t : Option Tok} (h : Lexeme w t r) (hr : Splits r) : Splits (w ++ r) := by
  have hpath : ∀ {w' r' : Bytes} {ts : List Spanned}, r = w' ++ r' → Path 0 w' ts r' →
      ∃ ts', Path 0 (w ++ w') ts' r' := by
    rintro w' r' ts rfl path
    have hshift := path.shift w.length
    rw [Nat.add_comm] at hshift
    exact ⟨_, .cons h hshift⟩
  cases hr with
  | here path hc hs =>
    obtain ⟨ts, path⟩ := hpath rfl path
    rw [← List.append_assoc]
    exact .here path hc hs
  | inside path walk hole splits =>
    obtain ⟨ts, path⟩ := hpath rfl path
    rw [← List.append_assoc]
    exact .inside path walk hole splits

theorem lexFstring_walk {src v inner r : Bytes} (hw : Whole src) (quote : Nat)
    (walk : Relation.ReflTransGen Passes v (byte '\x7b' :: (inner ++ byte '\x7d' :: r)))
    (hole : Hole inner r) (hlex : lex inner = .error .panic) : ∀ {i : Nat}, src.drop i = v →
      ∃ need, ∀ fuel parts lit, need ≤ fuel → lexFstring src quote fuel parts lit i = .error .panic := by
  induction walk using Relation.ReflTransGen.head_induction_on with
  | refl =>
    intro i hd
    refine ⟨inner.length + 2, fun fuel parts lit hfuel => ?_⟩
    obtain ⟨fuel, rfl⟩ : ∃ n, fuel = n + 1 := ⟨fuel - 1, by omega⟩
    unfold lex at hlex
    rw [lexFstring_hole hw hd hole, lexFrom_eq (Nat.le_of_succ_le_succ hfuel) (by rw [hlex]; nofun), hlex]
    rfl
  | head hpass _ ih =>
    intro i hd
    obtain ⟨need, k, hk, hturn⟩ := hpass.turn hw hd quote
    obtain ⟨need', hrest⟩ := ih hk
    refine ⟨max need need' + 1, fun fuel parts lit hfuel => ?_⟩
    obtain ⟨fuel, rfl⟩ : ∃ n, fuel = n + 1 := ⟨fuel - 1, by omega⟩
    obtain ⟨parts', lit', heq⟩ := hturn fuel parts lit (by omega)
    rw [heq]
    exact hrest fuel parts' lit' (by omega)

theorem lex_of_path {w r : Bytes} {ts : List Spanned} {fuel : Nat} (path : Path 0 w ts r)
    (h : lexFrom (w ++ r) fuel w.length = .error .panic) : lex (w ++ r) = .error .panic := by
  rw [← Nat.zero_add w.length] at h
  obtain ⟨fuel', hrun⟩ := lexFrom_of_path path rfl h nofun
  exact lex_eq hrun nofun

theorem Passes.suffix {v r : Bytes} (h : Passes v r) : ∃ u, v = u ++ r := by
  cases h with
  | @double c _ _ => exact ⟨[c, c], rfl⟩
  | @hole inner _ _ _ _ => exact ⟨byte '\x7b' :: (inner ++ [byte '\x7d']), by simp⟩
  | escape e => exact ⟨[byte '\\', e], rfl⟩
  | @plain c _ _ _ _ => exact ⟨[c], rfl⟩

theorem walk_suffix {v x : Bytes} (h : Relation.ReflTransGen Passes v x) : ∃ u, v = u ++ x := by
  induction h with
  | refl => exact ⟨[], rfl⟩
  | tail _ hpass ih =>
    obtain ⟨u, rfl⟩ := ih
    obtain ⟨u', rfl⟩ := hpass.suffix
    exact ⟨u ++ u', (List.append_assoc ..).symm⟩

omit [External] in
theorem Whole.hole {w inner r : Bytes} (h : Whole (w ++ byte '\x7b' :: (inner ++ byte '\x7d' :: r))) :
    Whole inner :=
  ((h.after_ascii (by decide)).split (starts_ascii r (by decide))).1

theorem Splits.panics {src : Bytes} (h : Splits src) (hw : Whole src) : lex src = .error .panic := by
  induction h with
  | @here w r c d ts path hc hr =>
    have hd : (w ++ c :: d :: r).drop w.length = c :: d :: r := List.drop_left
    have hd' : (w ++ c :: d :: r).drop (w.length + 2) = r := drop_past (w := [_, _]) hd
    have hlen : (w ++ c :: d :: r).length = w.length + (r.length + 2) := List.length_append
    have hslice : slice (w ++ c :: d :: r) w.length (w.length + 2) = .error .panic := by
      unfold slice
      rw [if_neg fun hok => hr (starts_of_boundary hd' hok.2.2)]
    have hrun : lexFrom (w ++ c :: d :: r) 1 w.length = .error .panic := by
      rw [lexFrom_succ 0 hd, lexOne_symbolic hc, if_pos (by omega), hslice]
      rfl
    exact lex_of_path path hrun
  | @inside w v inner r ts path walk hole _ ih =>
    have hinner : lex inner = .error .panic := by
      obtain ⟨u, rfl⟩ := walk_suffix walk
      have happ : w ++ byte 'f' :: byte '"' :: (u ++ byte '\x7b' :: (inner ++ byte '\x7d' :: r)) =
        (w ++ byte 'f' :: byte '"' :: u) ++ byte '\x7b' :: (inner ++ byte '\x7d' :: r) := by simp
      rw [happ] at hw
      exact ih hw.hole
    have hd : (w ++ byte 'f' :: byte '"' :: v).drop w.length = byte 'f' :: byte '"' :: v := List.drop_left
    have hd' : (w ++ byte 'f' :: byte '"' :: v).drop (w.length + 2) = v := drop_past (w := [_, _]) hd
    obtain ⟨need, hrun⟩ := lexFstring_walk hw (w.length + 1) walk hole hinner hd'
    have hfrom : lexFrom (w ++ byte 'f' :: byte '"' :: v) (need + 1) w.length = .error .panic := by
      rw [lexFrom_succ need hd, lexOne_fstring _ _ rfl, hrun need [] [] (Nat.le_refl _)]
      rfl
    exact lex_of_path path hfrom

theorem lexSymbol_ne_panic {src two : Bytes} {i : Nat} {c : UInt8} (hw : Whole src)
    (hi : isCharBoundary src i = true) : lexSymbol src i c two ≠ .error .panic := by
  unfold lexSymbol
  intro h
  split at h
  · cases h
  · cases h
  · exact errAt_ne_panic hw _ hi (Except.error.inj h)

theorem lexOne_panics {src rest : Bytes} {fuel i : Nat} {c : UInt8} (hw : Whole src)
    (hd : src.drop i = c :: rest) (hi : isCharBoundary src i = true)
    (h : lexOne src fuel i c rest = .error .panic) :
    (∃ d r, rest = d :: r ∧ symbolic c = true ∧ ¬ Starts r) ∨
      ∃ v, c = byte 'f' ∧ rest = byte '"' :: v ∧ lexFstring src (i + 1) fuel [] [] (i + 2) = .error .panic := by
  have hlen := lt_of_drop hd
  by_cases hsym : symbolic c = true
  · rw [lexOne_symbolic hsym] at h
    split at h
    next htwo =>
      cases rest with
      | nil =>
        rw [List.length_nil] at hlen
        omega
      | cons d r =>
        refine .inl ⟨d, r, rfl, hsym, fun hr => ?_⟩
        rw [slice_two hd (starts_of_boundary hd hi c rfl) hr] at h
        exact lexSymbol_ne_panic hw hi h
    · exact absurd h (lexSymbol_ne_panic hw hi)
  · right
    unfold lexOne at h
    split at h
    · cases h
    split at h
    · cases h
    split at h
    · cases h
    split at h
    next =>
      unfold lexString at h
      split at h
      · cases h
      · exact absurd (Except.error.inj h) (errAt_ne_panic hw _ hi)
    split at h
    next hf =>
      obtain ⟨rfl, hhead⟩ := hf
      cases rest with
      | nil => cases hhead
      | cons q v =>
        cases hhead
        refine ⟨v, rfl, rfl, ?_⟩
        cases hstr : lexFstring src (i + 1) fuel [] [] (i + 2) with
        | ok r =>
          rw [hstr] at h
          cases h
        | error f =>
          rw [hstr] at h
          cases h
          rfl
    split at h
    · dsimp only at h
      split at h
      · exact absurd (Except.error.inj h) (errAt_ne_panic hw _ hi)
      · cases h
    next hblank hline hhash hquote _ hdigit =>
      split at h
      · cases h
      next hword =>
        refine absurd ?_ hsym
        unfold symbolic
        simp only [not_or] at hblank hword
        simp [hblank, hline, hhash, hquote, hdigit, hword]

-- the lexer panics on a text only where it splits a character: by induction on the fuel, the text of a
-- hole being lexed with less
mutual

theorem splits_of_lexFrom : ∀ (fuel : Nat) {src : Bytes} {i : Nat}, Whole src →
    isCharBoundary src i = true → lexFrom src fuel i = .error .panic → Splits (src.drop i)
  | 0, _, _, _, _, h => by cases h
  | fuel + 1, src, i, hw, hi, h => by
    cases hd : src.drop i with
    | nil =>
      rw [lexFrom_end _ hd] at h
      cases h
    | cons c rest =>
      rw [lexFrom_succ _ hd] at h
      cases hone : lexOne src fuel i c rest with
      | error f =>
        rw [hone] at h
        cases h
        rcases lexOne_panics hw hd hi hone with ⟨d, r, rfl, hc, hr⟩ | ⟨v, rfl, rfl, hstr⟩
        · exact .here (.nil 0 _) hc hr
        · have hd' : src.drop (i + 2) = v := drop_past (w := [_, _]) hd
          have hquote : src.drop (i + 1) = byte '"' :: v := drop_past (w := [_]) hd
          obtain ⟨inner, r, walk, hole, hs⟩ :=
            splits_of_lexFstring fuel hw (hw.around_ascii hquote (by decide)).1 hstr
          rw [hd'] at walk
          exact .inside (.nil 0 _) walk hole hs
      | ok r =>
        obtain ⟨t, ni⟩ := r
        rw [hone] at h
        obtain ⟨w, r, hsplit, rfl, hlex⟩ := lexeme_of_lexOne hd hone
        have hr : src.drop (i + w.length) = r := drop_past (hd.trans hsplit)
        have hlen := congrArg List.length (hd.trans hsplit)
        rw [List.length_drop, List.length_append] at hlen
        have hpos := List.length_pos_iff.mpr hlex.ne_nil
        have hrest : Whole r := by
          have hwhole := hw.drop hi
          rw [hd, hsplit] at hwhole
          exact hlex.whole_rest hwhole
        have hrun : lexFrom src fuel (i + w.length) = .error .panic := by
          change (lexFrom src fuel (i + w.length) >>= _) = _ at h
          cases hrun : lexFrom src fuel (i + w.length) with
          | ok ts =>
            rw [hrun] at h
            cases h
          | error f =>
            rw [hrun] at h
            cases h
            rfl
        have hs := splits_of_lexFrom fuel hw ((boundary_iff hr (by omega)).mpr hrest.starts) hrun
        rw [hsplit]
        rw [hr] at hs
        exact hs.cons hlex

theorem splits_of_lexFstring : ∀ (fuel : Nat) {src : Bytes} {quote : Nat} {parts : List FPart} {lit : Bytes}
    {i : Nat}, Whole src → isCharBoundary src quote = true →
    lexFstring src quote fuel parts lit i = .error .panic → ∃ inner r,
      Relation.ReflTransGen Passes (src.drop i) (byte '\x7b' :: (inner ++ byte '\x7d' :: r)) ∧
        Hole inner r ∧ Splits inner
  | 0, _, _, _, _, _, _, _, h => by cases h
  | fuel + 1, src, quote, parts, lit, i, hw, hq, h => by
    cases hd : src.drop i with
    | nil =>
      rw [lexFstring, hd] at h
      exact absurd (Except.error.inj h) (errAt_ne_panic hw _ hq)
    | cons c rest =>
      have hnext : ∀ {parts lit} (k : Nat) {r : Bytes}, Passes (c :: rest) r → src.drop (i + k) = r →
          lexFstring src quote fuel parts lit (i + k) = .error .panic → ∃ inner r,
            Relation.ReflTransGen Passes (c :: rest) (byte '\x7b' :: (inner ++ byte '\x7d' :: r)) ∧
              Hole inner r ∧ Splits inner := by
        intro parts lit k r hpass hk hrun
        obtain ⟨inner, r', walk, hole, hs⟩ := splits_of_lexFstring fuel hw hq hrun
        rw [hk] at walk
        exact ⟨inner, r', walk.head hpass, hole, hs⟩
      by_cases hbrace : c = byte '\x7b' ∧ rest.head? ≠ some (byte '\x7b')
      · obtain ⟨rfl, hopen⟩ := hbrace
        cases hend : holeEnd 1 (i + 1) rest with
        | none =>
          rw [lexFstring, hd] at h
          dsimp only at h
          rw [if_neg (by decide), if_neg fun hb => hopen hb.2, if_pos rfl, hend] at h
          exact absurd (Except.error.inj h) (errAt_ne_panic hw _ (hw.around_ascii hd (by decide)).1)
        | some j =>
          obtain ⟨inner, r, rfl, -, hole⟩ := hole_of_holeEnd hend hopen
          rw [lexFstring_hole hw hd hole] at h
          cases hrun : lexFrom inner fuel 0 with
          | error f =>
            rw [hrun] at h
            cases h
            have hinner : Whole inner := by
              have hwhole := hw
              rw [← List.take_append_drop i src, hd] at hwhole
              exact hwhole.hole
            exact ⟨inner, r, .refl, hole, splits_of_lexFrom fuel hinner hinner.boundary_zero hrun⟩
          | ok toks =>
            rw [hrun] at h
            exact hnext (inner.length + 2) (.hole hole (lex_eq hrun nofun)) (drop_hole hd) h
      have hone : src.drop (i + 1) = rest := drop_past (w := [_]) hd
      rw [lexFstring, hd] at h
      dsimp only at h
      split at h
      · cases h
      next hquote =>
      split at h
      next hdouble =>
        obtain ⟨hc, hhead⟩ := hdouble
        cases rest with
        | nil => cases hhead
        | cons d rest =>
          cases hhead
          exact hnext 2 (.double rest hc) (drop_past (w := [_, _]) hd) h
      next hdouble =>
      have hopen : c ≠ byte '\x7b' := fun hc => hbrace ⟨hc, fun hh => hdouble ⟨.inl hc, hc ▸ hh⟩⟩
      rw [if_neg hopen] at h
      split at h
      next hslash =>
        cases beq_iff_eq.mp hslash
        exact hnext 2 (.escape _ _) (drop_past (w := [_, _]) hd) h
      next hslash =>
        refine hnext 1 (.plain ⟨hquote, hopen⟩ (fun hc hh => hdouble ⟨.inr hc, hh⟩) fun hc => ?_) hone h
        apply Classical.byContradiction
        intro hne
        obtain ⟨e, tail, htail⟩ := List.exists_cons_of_ne_nil hne
        exact hslash e tail (beq_iff_eq.mpr hc) htail

end

theorem lex_panics_iff {src : Bytes} (hw : Whole src) : lex src = .error .panic ↔ Splits src := by
  constructor
  · intro h
    exact splits_of_lexFrom _ hw hw.boundary_zero h
  · intro h
    exact h.panics hw

theorem Splits.high {src : Bytes} (h : Splits src) : ∃ b ∈ src, 128 ≤ b.toNat := by
  induction h with
  | @here w r c d ts _ _ hr =>
    cases r with
    | nil => exact absurd nofun hr
    | cons b r =>
      refine ⟨b, by simp, Nat.le_of_not_lt fun hlow => ?_⟩
      exact hr (starts_ascii r hlow)
  | @inside w v inner r ts _ walk _ _ ih =>
    obtain ⟨b, hb, hhigh⟩ := ih
    obtain ⟨u, rfl⟩ := walk_suffix walk
    exact ⟨b, by simp [hb], hhigh⟩

omit [External] in
theorem boundary_of_ascii {src : Bytes} {i : Nat} (h : ∀ b ∈ src, b.toNat < 128) (hi : i ≤ src.length) :
    isCharBoundary src i = true := by
  refine (boundary_iff rfl hi).mpr fun b hb => ?_
  have hlow := h b (List.mem_of_mem_drop (List.mem_of_head? hb))
  rw [← Bool.not_eq_true, isCont_iff]
  omega

end Vejas.Vjs
