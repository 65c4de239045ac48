import Mathlib.Data.List.TakeDrop
import Vejas.Json.Text

/-! What is written reads back. A document without floats, nested no deeper than the reader
goes and with its objects in order, is what the reader makes of its text. -/

namespace Vejas.Json
open Rust

theorem charsLt_irrefl (cs : List Char) : charsLt cs cs = false := by
  induction cs with
  | nil => rfl
  | cons c cs ih => simp [charsLt_cons, ih]

theorem charsLt_asymm : ∀ {as bs : List Char}, charsLt as bs = true → charsLt bs as = false
  | [], [], h => by cases h
  | [], _ :: _, _ => rfl
  | _ :: _, [], h => by cases h
  | a :: as, b :: bs, h => by
    simp only [charsLt_cons, Bool.or_eq_true, decide_eq_true_eq, Bool.and_eq_true, beq_iff_eq] at h
    rcases h with hlt | ⟨rfl, hrest⟩
    · have hne : ¬ b.toNat < a.toNat := Nat.lt_asymm hlt
      have hneq : (b == a) = false := by
        rw [beq_eq_false_iff_ne]
        rintro rfl
        exact Nat.lt_irrefl _ hlt
      simp [charsLt_cons, hne, hneq]
    · simp [charsLt_cons, charsLt_asymm hrest]

theorem strLt_asymm {s t : String} (h : strLt s t = true) : strLt t s = false := charsLt_asymm h

theorem strLt_ne {s t : String} (h : strLt s t = true) : s ≠ t := by
  rintro rfl
  rw [strLt, charsLt_irrefl] at h
  cases h

theorem charsLt_trans : ∀ {as bs cs : List Char}, charsLt as bs = true → charsLt bs cs = true →
    charsLt as cs = true
  | [], [], _, h, _ => by cases h
  | [], _ :: _, [], _, h => by cases h
  | [], _ :: _, _ :: _, _, _ => rfl
  | _ :: _, [], _, h, _ => by cases h
  | _ :: _, _ :: _, [], _, h => by cases h
  | a :: as, b :: bs, c :: cs, h, h' => by
    simp only [charsLt_cons, Bool.or_eq_true, decide_eq_true_eq, Bool.and_eq_true, beq_iff_eq] at h h' ⊢
    rcases h with hlt | ⟨rfl, hrest⟩
    · rcases h' with hlt' | ⟨rfl, -⟩
      · exact .inl (Nat.lt_trans hlt hlt')
      · exact .inl hlt
    · rcases h' with hlt' | ⟨rfl, hrest'⟩
      · exact .inl hlt'
      · exact .inr ⟨rfl, charsLt_trans hrest hrest'⟩

theorem charsLt_total : ∀ {as bs : List Char}, charsLt as bs = false → as ≠ bs →
    charsLt bs as = true
  | [], [], _, hne => absurd rfl hne
  | [], _ :: _, h, _ => by cases h
  | _ :: _, [], _, _ => rfl
  | a :: as, b :: bs, h, hne => by
    simp only [charsLt_cons, Bool.or_eq_false_iff, decide_eq_false_iff_not, Nat.not_lt] at h
    simp only [charsLt_cons, Bool.or_eq_true, decide_eq_true_eq, Bool.and_eq_true, beq_iff_eq]
    rcases Nat.lt_or_eq_of_le h.1 with hlt | heq
    · exact .inl hlt
    · obtain rfl : b = a := Char.toNat_inj.mp heq
      refine .inr ⟨rfl, charsLt_total ?_ fun hsame => hne (by rw [hsame])⟩
      simpa using h.2

theorem strLt_trans {s t u : String} (h : strLt s t = true) (h' : strLt t u = true) :
    strLt s u = true := charsLt_trans h h'

theorem strLt_total {s t : String} (h : strLt s t = false) (hne : s ≠ t) : strLt t s = true :=
  charsLt_total h fun hsame => hne (String.toList_inj.mp hsame)

def Map.Ordered (m : Map) : Prop := m.Pairwise fun p q => strLt p.1 q.1 = true

theorem Map.ordered_iff_keys (m : Map) :
    Map.Ordered m ↔ (m.map (·.1)).Pairwise fun k l => strLt k l = true := by
  unfold Map.Ordered
  rw [List.pairwise_map]

theorem Map.insert_last {m : Map} {k : String} {v : Value} (h : ∀ p ∈ m, strLt p.1 k = true) :
    Map.insert k v m = m ++ [(k, v)] := by
  induction m with
  | nil => rfl
  | cons p m ih =>
    have hp := h p List.mem_cons_self
    have hne : k ≠ p.1 := (strLt_ne hp).symm
    simp only [Map.insert_cons, strLt_asymm hp, Bool.false_eq_true, if_false, if_neg hne, List.cons_append]
    rw [ih fun q hq => h q (List.mem_cons_of_mem _ hq)]

theorem Map.mem_insert {m : Map} {k : String} {v : Value} {p : String × Value}
    (h : p ∈ Map.insert k v m) : p = (k, v) ∨ p ∈ m := by
  induction m with
  | nil => exact .inl (List.mem_singleton.mp h)
  | cons q m ih =>
    simp only [Map.insert_cons] at h
    split at h
    · exact List.mem_cons.mp h
    · split at h
      · exact (List.mem_cons.mp h).imp id (List.mem_cons_of_mem _)
      · rcases List.mem_cons.mp h with rfl | h
        · exact .inr List.mem_cons_self
        · exact (ih h).imp id (List.mem_cons_of_mem _)

theorem Map.Ordered.insert {m : Map} (h : Ordered m) (k : String) (v : Value) :
    Ordered (Map.insert k v m) := by
  induction m with
  | nil => exact List.pairwise_singleton _ _
  | cons q m ih =>
    obtain ⟨hq, hm⟩ := List.pairwise_cons.mp h
    simp only [Map.insert_cons]
    split
    next hlt =>
      refine List.pairwise_cons.mpr ⟨fun p hp => ?_, h⟩
      rcases List.mem_cons.mp hp with rfl | hp
      · exact hlt
      · exact strLt_trans hlt (hq p hp)
    next hge =>
      split
      next heq =>
        refine List.pairwise_cons.mpr ⟨fun p hp => ?_, hm⟩
        rw [heq]
        exact hq p hp
      next hne =>
        have hlt : strLt q.1 k = true := strLt_total (by simpa using hge) hne
        refine List.pairwise_cons.mpr ⟨fun p hp => ?_, ih hm⟩
        rcases Map.mem_insert hp with rfl | hp
        · exact hlt
        · exact hq p hp

theorem Map.get?_insert (m : Map) (k k' : String) (v : Value) :
    Map.get? (Map.insert k v m) k' = if k = k' then some v else Map.get? m k' := by
  induction m with
  | nil =>
    by_cases h : k = k' <;> simp [Map.insert, Map.get?, h]
  | cons q m ih =>
    unfold Map.get? at ih ⊢
    simp only [Map.insert_cons]
    split
    · by_cases h : k = k' <;> simp [h]
    · split
      next heq =>
        by_cases h : k = k'
        · simp [h]
        · have hq : q.1 ≠ k' := fun hq => h (heq.trans hq)
          simp [h, hq]
      next hne =>
        by_cases hq : q.1 = k'
        · have hk : k ≠ k' := fun h => hne (h.trans hq.symm)
          simp [hq, hk]
        · simp only [List.find?_cons, beq_false_of_ne hq]
          exact ih

theorem Map.get?_extend (es : List (String × Value)) (m : Map) {k : String} {v : Value}
    (hn : (es.map (·.1)).Nodup) (h : (k, v) ∈ es ∨ k ∉ es.map (·.1) ∧ Map.get? m k = some v) :
    Map.get? (Map.extend es m) k = some v := by
  induction es generalizing m with
  | nil =>
    rcases h with h | h
    · cases h
    · exact h.2
  | cons e es ih =>
    obtain ⟨hout, hrest⟩ := List.nodup_cons.mp hn
    show Map.get? (Map.extend es (Map.insert e.1 e.2 m)) k = some v
    apply ih _ hrest
    rcases h with h | ⟨hnot, hm⟩
    · rcases List.mem_cons.mp h with heq | h
      · subst heq
        exact .inr ⟨hout, by rw [Map.get?_insert, if_pos rfl]⟩
      · exact .inl h
    · rw [List.map_cons, List.mem_cons] at hnot
      refine .inr ⟨fun hin => hnot (.inr hin), ?_⟩
      rw [Map.get?_insert, if_neg fun heq => hnot (.inl heq.symm)]
      exact hm

theorem Map.get?_ofEntries {es : List (String × Value)} (hn : (es.map (·.1)).Nodup) {k : String} {v : Value}
    (h : (k, v) ∈ es) : Map.get? (Map.ofEntries es) k = some v := Map.get?_extend es [] hn (.inl h)

theorem Map.get?_remove (m : Map) (k k' : String) :
    Map.get? (Map.remove m k) k' = if k = k' then none else Map.get? m k' := by
  unfold Map.get? Map.remove
  induction m with
  | nil => simp
  | cons q m ih =>
    by_cases hq : q.1 = k
    · rw [List.filter_cons_of_neg (by simp [hq]), ih]
      by_cases h : k = k'
      · rw [if_pos h, if_pos h]
      · have hne : q.1 ≠ k' := fun he => h (hq.symm.trans he)
        rw [if_neg h, if_neg h, List.find?_cons_of_neg (by simpa using hne)]
    · rw [List.filter_cons_of_pos (by simpa using hq)]
      by_cases hk : q.1 = k'
      · have hne : ¬ k = k' := fun h => hq (hk.trans h.symm)
        rw [if_neg hne, List.find?_cons_of_pos (by simpa using hk),
          List.find?_cons_of_pos (by simpa using hk)]
      · rw [List.find?_cons_of_neg (by simpa using hk), List.find?_cons_of_neg (by simpa using hk), ih]

theorem Map.get?_eq_none {m : Map} {k : String} (h : ∀ p ∈ m, p.1 ≠ k) : Map.get? m k = none := by
  unfold Map.get?
  rw [List.find?_eq_none.mpr fun p hp => by simpa using h p hp]
  rfl

theorem Map.Ordered.ext : ∀ {m m' : Map}, Ordered m → Ordered m' →
    (∀ k, Map.get? m k = Map.get? m' k) → m = m'
  | [], [], _, _, _ => rfl
  | [], q :: m', _, _, h => by
    have := h q.1
    simp [Map.get?] at this
  | q :: m, [], _, _, h => by
    have := h q.1
    simp [Map.get?] at this
  | (k, v) :: m, (k', v') :: m', ho, ho', h => by
    obtain ⟨hfirst, hm⟩ := List.pairwise_cons.mp ho
    obtain ⟨hfirst', hm'⟩ := List.pairwise_cons.mp ho'
    -- the least key of the one is the least key of the other
    have hkey : k = k' := by
      by_contra hne
      cases hlt : strLt k k' with
      | true =>
        have hget := h k
        rw [Map.get?_eq_none (m := (k', v') :: m')] at hget
        · simp [Map.get?] at hget
        · intro p hp
          rcases List.mem_cons.mp hp with rfl | hp
          · exact fun he => hne he.symm
          · exact (strLt_ne (strLt_trans hlt (hfirst' p hp))).symm
      | false =>
        have hgt := strLt_total hlt hne
        have hget := h k'
        rw [Map.get?_eq_none (m := (k, v) :: m)] at hget
        · simp [Map.get?] at hget
        · intro p hp
          rcases List.mem_cons.mp hp with rfl | hp
          · exact hne
          · exact (strLt_ne (strLt_trans hgt (hfirst p hp))).symm
    subst hkey
    have hval : v = v' := by simpa [Map.get?] using h k
    subst hval
    have htail : m = m' := by
      refine Map.Ordered.ext hm hm' fun x => ?_
      by_cases hx : k = x
      · rw [Map.get?_eq_none, Map.get?_eq_none]
        · exact fun p hp => hx ▸ (strLt_ne (hfirst' p hp)).symm
        · exact fun p hp => hx ▸ (strLt_ne (hfirst p hp)).symm
      · have := h x
        unfold Map.get? at this ⊢
        rwa [List.find?_cons_of_neg (by simpa using hx), List.find?_cons_of_neg (by simpa using hx)] at this
    rw [htail]

theorem Map.extend_ind {P : Map → Prop} (hstep : ∀ m k v, P m → P (Map.insert k v m)) :
    ∀ (es : List (String × Value)) {m : Map}, P m → P (Map.extend es m)
  | [], _, h => h
  | (k, v) :: es, m, h => Map.extend_ind hstep es (hstep m k v h)

theorem Map.extend_ordered : ∀ (es : List (String × Value)) {m : Map}, Ordered (m ++ es) →
    Map.extend es m = m ++ es
  | [], m, _ => (List.append_nil m).symm
  | (k, v) :: es, m, h => by
    have hlast : Map.insert k v m = m ++ [(k, v)] :=
      Map.insert_last fun p hp => (List.pairwise_append.mp h).2.2 p hp (k, v) (List.mem_cons_self ..)
    rw [List.append_cons] at h
    show Map.extend es (Map.insert k v m) = _
    rw [hlast, Map.extend_ordered es h, ← List.append_cons]

theorem Map.ordered_ofEntries (es : List (String × Value)) : Ordered (Map.ofEntries es) :=
  Map.extend_ind (P := Ordered) (fun _ k v h => h.insert k v) es .nil

theorem Map.mem_extend {p : String × Value} : ∀ (es : List (String × Value)) (m : Map),
    p ∈ Map.extend es m → p ∈ es ∨ p ∈ m
  | [], _, h => .inr h
  | (k, v) :: es, m, h => by
    rcases Map.mem_extend es (Map.insert k v m) h with h | h
    · exact .inl (List.mem_cons_of_mem _ h)
    · rcases Map.mem_insert h with rfl | h
      · exact .inl List.mem_cons_self
      · exact .inr h

theorem escapeChar_plain {c : Char} (hctl : ¬ c.toNat < 32) (hquote : c ≠ '"') (hslash : c ≠ '\\') :
    escapeChar c = [c] := by
  have hne : ∀ d : Char, d.toNat < 32 → c ≠ d := by
    rintro d hd rfl
    exact hctl hd
  unfold escapeChar
  rw [if_neg hquote, if_neg hslash, if_neg (hne _ (by decide)), if_neg (hne _ (by decide)),
    if_neg (hne _ (by decide)), if_neg (by omega), if_neg (by omega), if_neg (by omega),
    if_neg hctl]

theorem readStr_escape (c : Char) (fuel : Nat) (acc rest : List Char) :
    readStr (fuel + 1) acc (escapeChar c ++ rest) = readStr fuel (c :: acc) rest := by
  by_cases hctl : c.toNat < 32
  · -- a control character is one of thirty-two, each with an escape of its own
    obtain ⟨n, hn, rfl⟩ : ∃ n, n < 32 ∧ c = Char.ofNat n := ⟨c.toNat, hctl, (Char.ofNat_toNat c).symm⟩
    have hall : ∀ n, n < 32 → readStr (fuel + 1) acc (escapeChar (Char.ofNat n) ++ rest) =
        readStr fuel (Char.ofNat n :: acc) rest := by
      intro n hn
      rcases n with _|_|_|_|_|_|_|_|_|_|_|_|_|_|_|_|_|_|_|_|_|_|_|_|_|_|_|_|_|_|_|_|n
      all_goals first | rfl | omega
    exact hall n hn
  · by_cases hq : c = '"'
    · subst hq
      rfl
    · by_cases hb : c = '\\'
      · subst hb
        rfl
      · rw [escapeChar_plain hctl hq hb, List.cons_append, List.nil_append, readStr.eq_def]
        dsimp only
        rw [if_neg hq, if_neg hb, if_neg hctl]

theorem readStr_escaped (cs acc rest : List Char) (fuel : Nat) (h : cs.length < fuel) :
    readStr fuel acc (cs.flatMap escapeChar ++ '"' :: rest) =
      some (String.ofList (acc.reverse ++ cs), rest) := by
  induction cs generalizing acc fuel with
  | nil =>
    obtain ⟨fuel, rfl⟩ : ∃ k, fuel = k + 1 := ⟨fuel - 1, by simp at h; omega⟩
    simp [readStr]
  | cons c cs ih =>
    obtain ⟨fuel, rfl⟩ : ∃ k, fuel = k + 1 := ⟨fuel - 1, by simp at h; omega⟩
    rw [List.flatMap_cons, List.append_assoc, readStr_escape]
    rw [ih (c :: acc) fuel (by simp at h; omega)]
    simp

theorem length_escaped (cs : List Char) : cs.length ≤ (cs.flatMap escapeChar).length := by
  induction cs with
  | nil => exact Nat.le_refl _
  | cons c cs ih =>
    have hone : 1 ≤ (escapeChar c).length := by
      unfold escapeChar
      repeat' split
      all_goals simp
    simp only [List.flatMap_cons, List.length_append, List.length_cons]
    omega

theorem renderStr_toList (s : String) :
    (renderStr s).toList = '"' :: (s.toList.flatMap escapeChar ++ ['"']) := by
  simp [renderStr]

def Stops : List Char → Prop
  | [] => True
  | c :: _ => c.isDigit = false ∧ c ≠ '.' ∧ c ≠ 'e' ∧ c ≠ 'E'

theorem stops_of {c : Char} (cs : List Char) (h : c = ',' ∨ c = ']' ∨ c = '\x7d') :
    Stops (c :: cs) := by
  rcases h with rfl | rfl | rfl <;> exact ⟨by decide, by decide, by decide, by decide⟩

theorem Stops.head {cs : List Char} {c : Char} (h : Stops cs) (hc : cs.head? = some c) :
    c.isDigit = false := by
  cases cs with
  | nil => cases hc
  | cons d cs =>
    cases hc
    exact h.1

theorem digitRun_append {ds rest : List Char} (hd : ∀ c ∈ ds, c.isDigit = true)
    (hr : ∀ c, rest.head? = some c → c.isDigit = false) :
    F64.digitRun (ds ++ rest) = (ds, rest) := by
  unfold F64.digitRun
  rw [List.span_eq_takeWhile_dropWhile]
  have hstop : rest.takeWhile Char.isDigit = [] ∧ rest.dropWhile Char.isDigit = rest := by
    cases rest with
    | nil => exact ⟨rfl, rfl⟩
    | cons c cs => simp [hr c rfl]
  rw [List.takeWhile_append_of_pos hd, List.dropWhile_append_of_pos hd, hstop.1, hstop.2,
    List.append_nil]

theorem takeDigits_eq (step : Int) :
    ∀ (ds : List Char) (sig : Nat), Nat.ofDigitChars 10 ds sig < 2 ^ 64 →
      takeDigits sig step ds = (Nat.ofDigitChars 10 ds sig, step * ds.length)
  | [], sig, _ => by simp [takeDigits]
  | c :: cs, sig, h => by
    rw [Nat.ofDigitChars_cons] at h
    have hle : 10 * sig + (c.toNat - '0'.toNat) < 2 ^ 64 := by
      rw [Nat.ofDigitChars_eq_ofDigitChars_zero] at h
      have := Nat.le_mul_of_pos_left (10 * sig + (c.toNat - '0'.toNat)) (Nat.pow_pos (n := cs.length) (show 0 < 10 by omega))
      omega
    have hmul : sig * 10 = 10 * sig := Nat.mul_comm ..
    simp only [takeDigits, hmul, if_pos hle, takeDigits_eq step cs _ h, Nat.ofDigitChars_cons]
    simp [Int.mul_add]

theorem toDigits_head_ne_zero : ∀ n, 0 < n → (Nat.toDigits 10 n).head? ≠ some '0' := by
  intro n
  induction n using Nat.base_induction 10 (by decide) with
  | single m hm =>
    intro hpos
    rw [Nat.toDigits_of_lt_base hm]
    have hall : ∀ m, m < 10 → 0 < m → ([m.digitChar] : List Char).head? ≠ some '0' := by decide
    exact hall m hm hpos
  | digit m k hk hm ih =>
    intro _
    rw [← Nat.toDigits_append_toDigits (by decide) hm hk, List.head?_append]
    cases hd : (Nat.toDigits 10 m).head? with
    | none => exact absurd (List.head?_eq_none_iff.mp hd) Nat.toDigits_ne_nil
    | some c =>
      have hc := ih hm
      rw [hd] at hc
      exact hc

theorem readNumber_toDigits (n : Nat) (hn : n < 2 ^ 64) (neg : Bool) {rest : List Char}
    (hr : Stops rest) : readNumber neg (Nat.toDigits 10 n ++ rest) = (mkInt neg n).map (·, rest) := by
  have hdig : ∀ c ∈ Nat.toDigits 10 n, c.isDigit = true :=
    fun c hc => Nat.isDigit_of_mem_toDigits (by decide) (by decide) hc
  have hlead : ¬ ((Nat.toDigits 10 n).isEmpty = true ∨
      ((Nat.toDigits 10 n).head? = some '0' ∧ 1 < (Nat.toDigits 10 n).length)) := by
    rintro (hnil | ⟨hzero, hlong⟩)
    · exact Nat.toDigits_ne_nil (List.isEmpty_iff.mp hnil)
    · rcases Nat.eq_zero_or_pos n with rfl | hpos
      · simp [Nat.toDigits_zero] at hlong
      · exact toDigits_head_ne_zero n hpos hzero
  have hsig : takeDigits 0 0 (Nat.toDigits 10 n) = (n, 0) := by
    rw [takeDigits_eq 0 _ 0 (by rw [Nat.ofDigitChars_ten_toDigits]; exact hn)]
    simp
  unfold readNumber
  rw [digitRun_append hdig fun c hc => hr.head hc]
  dsimp only
  rw [if_neg hlead, hsig]
  cases rest with
  | nil => simp [takeDigits]
  | cons c cs =>
    obtain ⟨-, hdot, he, hE⟩ := hr
    simp [takeDigits, hdot, he, hE]

theorem mkInt_negInt (n : Int64) (h : n < 0) :
    mkInt true (-n.toInt).toNat = some (.number (.negInt n h)) := by
  have hneg : n.toInt < 0 := Int64.lt_iff_toInt_lt.mp h
  have hlow : -2 ^ 63 ≤ n.toInt := Int64.le_toInt n
  have hrange : 0 < (-n.toInt).toNat ∧ (-n.toInt).toNat ≤ 2 ^ 63 := by omega
  have hback : Int64.ofInt (-((-n.toInt).toNat : Int)) = n := by
    have : -((-n.toInt).toNat : Int) = n.toInt := by omega
    rw [this]
    exact Int64.ofInt_toInt n
  unfold mkInt
  rw [if_pos rfl, if_pos hrange, hback, Number.ofI64, dif_pos h]

/-- Nested at most `depth` deep, free of floats, every object in order of its keys. -/
inductive Exact : Nat → Value → Prop
  | null (depth : Nat) : Exact depth .null
  | bool (depth : Nat) (b : Bool) : Exact depth (.bool b)
  | posInt (depth : Nat) (n : UInt64) : Exact depth (.number (.posInt n))
  | negInt (depth : Nat) (n : Int64) (h : n < 0) : Exact depth (.number (.negInt n h))
  | string (depth : Nat) (s : String) : Exact depth (.string s)
  | array {depth : Nat} {vs : List Value} (h : ∀ v ∈ vs, Exact depth v) : Exact (depth + 1) (.array vs)
  | object {depth : Nat} {fs : List (String × Value)} (h : ∀ p ∈ fs, Exact depth p.2)
      (ordered : Map.Ordered fs) : Exact (depth + 1) (.object fs)

theorem Exact.obj {depth : Nat} {es : List (String × Value)} (h : ∀ p ∈ es, Exact depth p.2) :
    Exact (depth + 1) (.obj es) := by
  refine .object (fun p hp => ?_) (Map.ordered_ofEntries es)
  rcases Map.mem_extend es [] hp with hp | hp
  · exact h p hp
  · cases hp

theorem skipBlank_cons {c : Char} (cs : List Char) (h : c ≠ ' ' ∧ c ≠ '\n' ∧ c ≠ '\t' ∧ c ≠ '\r') :
    skipBlank (c :: cs) = c :: cs := by
  simp [skipBlank, h]

def Opens : List Char → Prop
  | [] => False
  | c :: _ => (c ≠ ' ' ∧ c ≠ '\n' ∧ c ≠ '\t' ∧ c ≠ '\r') ∧ c ≠ ']' ∧ c ≠ '\x7d'

theorem toDigits_cons (n : Nat) :
    ∃ c cs, Nat.toDigits 10 n = c :: cs ∧ c.isDigit = true := by
  cases hd : Nat.toDigits 10 n with
  | nil => exact absurd hd Nat.toDigits_ne_nil
  | cons c cs =>
    refine ⟨c, cs, rfl, Nat.isDigit_of_mem_toDigits (b := 10) (n := n) (by decide) (by decide) ?_⟩
    rw [hd]
    exact List.mem_cons_self

theorem digit_ne {c : Char} (h : c.isDigit = true) :
    (c ≠ ' ' ∧ c ≠ '\n' ∧ c ≠ '\t' ∧ c ≠ '\r') ∧
      c ≠ 'n' ∧ c ≠ 't' ∧ c ≠ 'f' ∧ c ≠ '"' ∧ c ≠ '-' := by
  refine ⟨⟨?_, ?_, ?_, ?_⟩, ?_, ?_, ?_, ?_, ?_⟩ <;> (rintro rfl; revert h; decide)

theorem isAsciiDigit_of_isDigit {c : Char} (h : c.isDigit = true) : isAsciiDigit c = true := by
  simpa [Char.isDigit, isAsciiDigit, Char.le_def] using h

theorem opens_digits (n : Nat) (rest : List Char) : Opens (Nat.toDigits 10 n ++ rest) := by
  obtain ⟨c, cs, hdig, hc⟩ := toDigits_cons n
  rw [hdig]
  refine ⟨(digit_ne hc).1, ?_, ?_⟩ <;> (rintro rfl; revert hc; decide)

theorem printable_of_all {cs : List Char} (h : (cs.all fun c => decide (32 ≤ c.toNat)) = true) : ∀ c ∈ cs, 32 ≤ c.toNat := by
  simpa using h

theorem escapeChar_printable (c : Char) : ∀ d ∈ escapeChar c, 32 ≤ d.toNat := by
  by_cases hc : c.toNat < 32
  · have hall : ∀ n < 32, ((escapeChar (Char.ofNat n)).all fun d => decide (32 ≤ d.toNat)) = true := by decide
    have h := hall c.toNat hc
    rw [Char.ofNat_toNat] at h
    exact printable_of_all h
  · by_cases hquote : c = '"'
    · subst hquote
      exact printable_of_all (by decide)
    by_cases hslash : c = '\\'
    · subst hslash
      exact printable_of_all (by decide)
    rw [escapeChar_plain hc hquote hslash]
    simpa using hc

theorem renderStr_printable (s : String) : ∀ d ∈ (renderStr s).toList, 32 ≤ d.toNat := by
  intro d hd
  rw [renderStr_toList, List.mem_cons, List.mem_append, List.mem_flatMap, List.mem_singleton] at hd
  rcases hd with rfl | ⟨c, -, hd⟩ | rfl
  · decide
  · exact escapeChar_printable c d hd
  · decide

theorem toDigits_printable (n : Nat) : ∀ d ∈ Nat.toDigits 10 n, 32 ≤ d.toNat := by
  intro d hd
  have hdigit := isAsciiDigit_of_isDigit (Nat.isDigit_of_mem_toDigits (by decide) (by decide) hd)
  have hlow : '0' ≤ d := by
    simp only [isAsciiDigit, Bool.and_eq_true, decide_eq_true_eq] at hdigit
    exact hdigit.1
  exact Nat.le_trans (by decide) (show '0'.toNat ≤ d.toNat from hlow)

variable [External]

def chars (v : Value) : List Char := v.render.toList

def itemChars : List Value → List Char
  | [] => []
  | [v] => chars v
  | v :: w :: vs => chars v ++ ',' :: itemChars (w :: vs)

def fieldChars : List (String × Value) → List Char
  | [] => []
  | [(k, v)] => (renderStr k).toList ++ ':' :: chars v
  | (k, v) :: p :: ps => (renderStr k).toList ++ ':' :: (chars v ++ ',' :: fieldChars (p :: ps))

attribute [local simp] Value.render Value.renderItems Value.renderFields Number.render itemChars fieldChars

theorem chars_array (vs : List Value) : chars (.array vs) = '[' :: (itemChars vs ++ [']']) := by
  have hitems : ∀ vs, (join "," (Value.renderItems vs)).toList = itemChars vs := by
    intro vs
    induction vs with
    | nil => rfl
    | cons v vs ih =>
      cases vs with
      | nil => rfl
      | cons w vs =>
        have ih' : (join "," (w.render :: Value.renderItems vs)).toList = itemChars (w :: vs) := ih
        simp [Value.renderItems, join, itemChars, chars, ih']
  simp [chars, Value.render, hitems]

theorem chars_object (fs : List (String × Value)) :
    chars (.object fs) = '\x7b' :: (fieldChars fs ++ ['\x7d']) := by
  have hfields : ∀ fs, (join "," (Value.renderFields fs)).toList = fieldChars fs := by
    intro fs
    induction fs with
    | nil => rfl
    | cons p fs ih =>
      obtain ⟨k, v⟩ := p
      cases fs with
      | nil => simp [Value.renderFields, join, fieldChars, chars]
      | cons q fs =>
        obtain ⟨l, w⟩ := q
        have ih' : (join "," ((renderStr l ++ ":" ++ w.render) :: Value.renderFields fs)).toList =
            fieldChars ((l, w) :: fs) := ih
        simp [Value.renderFields, join, fieldChars, chars, ih']
  simp [chars, Value.render, hfields]

theorem chars_posInt (n : UInt64) : chars (.number (.posInt n)) = Nat.toDigits 10 n.toNat := by
  simp [chars, Value.render, Number.render]

theorem chars_negInt (n : Int64) (h : n < 0) :
    chars (.number (.negInt n h)) = '-' :: Nat.toDigits 10 (-n.toInt).toNat := by
  obtain ⟨m, hm⟩ : ∃ m, n.toInt = Int.negSucc m := by
    have hneg : n.toInt < 0 := Int64.lt_iff_toInt_lt.mp h
    exact Int.eq_negSucc_of_lt_zero hneg
  have hrepr : (Int.negSucc m).repr = "-" ++ (m + 1).repr := rfl
  simp [chars, Value.render, Number.render, hm, hrepr]

theorem chars_string (s : String) :
    chars (.string s) = '"' :: (s.toList.flatMap escapeChar ++ ['"']) := by
  rw [chars, Value.render, renderStr_toList]

theorem chars_null : chars .null = ['n', 'u', 'l', 'l'] := by simp [chars, Value.render]

theorem chars_bool (b : Bool) :
    chars (.bool b) = if b then ['t', 'r', 'u', 'e'] else ['f', 'a', 'l', 's', 'e'] := by
  cases b <;> simp [chars, Value.render]

theorem opens_chars {depth : Nat} {v : Value} (h : Exact depth v) (rest : List Char) :
    Opens (chars v ++ rest) := by
  cases h with
  | null =>
    rw [chars_null]
    exact ⟨by decide, by decide, by decide⟩
  | bool d b =>
    rw [chars_bool]
    cases b <;> exact ⟨by decide, by decide, by decide⟩
  | posInt d n =>
    rw [chars_posInt]
    exact opens_digits _ rest
  | negInt d n hn =>
    rw [chars_negInt]
    exact ⟨by decide, by decide, by decide⟩
  | string d s =>
    rw [chars_string]
    exact ⟨by decide, by decide, by decide⟩
  | array h =>
    rw [chars_array]
    exact ⟨by decide, by decide, by decide⟩
  | object h ho =>
    rw [chars_object]
    exact ⟨by decide, by decide, by decide⟩

def ReadsBack (depth : Nat) (v : Value) : Prop :=
  ∀ (fuel room : Nat) (rest : List Char), depth < room → 2 * (chars v).length ≤ fuel → Stops rest →
    readValue fuel room (chars v ++ rest) = some (v, rest)

theorem readItems_chars {depth : Nat} : ∀ (vs : List Value), vs ≠ [] →
    (∀ v ∈ vs, ReadsBack depth v) →
    ∀ (fuel room : Nat) (rest : List Char), depth < room → 2 * (itemChars vs).length + 1 ≤ fuel →
      readItems fuel room (itemChars vs ++ ']' :: rest) = some (vs, rest)
  | [], hne, _, _, _, _, _, _ => absurd rfl hne
  | [v], _, h, fuel, room, rest, hroom, hfuel => by
    obtain ⟨fuel, rfl⟩ : ∃ k, fuel = k + 1 := ⟨fuel - 1, by omega⟩
    simp only [itemChars] at hfuel
    have hv := h v List.mem_cons_self fuel room (']' :: rest) hroom (by omega)
      (stops_of _ (.inr (.inl rfl)))
    simp only [readItems, itemChars, hv]
    rfl
  | v :: w :: vs, _, h, fuel, room, rest, hroom, hfuel => by
    obtain ⟨fuel, rfl⟩ : ∃ k, fuel = k + 1 := ⟨fuel - 1, by omega⟩
    simp only [itemChars, List.length_append, List.length_cons] at hfuel
    have hv := h v List.mem_cons_self fuel room (',' :: (itemChars (w :: vs) ++ ']' :: rest)) hroom
      (by omega) (stops_of _ (.inl rfl))
    have hrest := readItems_chars (w :: vs) (List.cons_ne_nil _ _)
      (fun u hu => h u (List.mem_cons_of_mem _ hu)) fuel room rest hroom (by omega)
    simp only [readItems, itemChars, List.append_assoc, List.cons_append, hv]
    rw [Option.bind_eq_bind, Option.bind_some, skipBlank_cons _ (by decide)]
    simp only [hrest]
    rfl

theorem readFields_step {fuel room : Nat} {tail : List Char} {k : String} {v : Value} (m : Map)
    (hk : k.toList.length < fuel) (hv : readValue fuel room (chars v ++ tail) = some (v, tail)) :
    readFields (fuel + 1) room m ((renderStr k).toList ++ ':' :: (chars v ++ tail)) =
      match skipBlank tail with
      | ',' :: cs => readFields fuel room (Map.insert k v m) cs
      | '\x7d' :: cs => some (Map.insert k v m, cs)
      | _ => none := by
  have hkey := readStr_escaped k.toList [] (':' :: (chars v ++ tail)) fuel hk
  simp only [List.reverse_nil, List.nil_append, String.ofList_toList] at hkey
  rw [renderStr_toList, List.cons_append, List.append_assoc, readFields,
    skipBlank_cons _ (by decide)]
  simp only [List.cons_append, List.nil_append, hkey]
  rw [Option.bind_eq_bind, Option.bind_some]
  simp only [skipBlank_cons _ (show ':' ≠ ' ' ∧ ':' ≠ '\n' ∧ ':' ≠ '\t' ∧ ':' ≠ '\r' by decide), hv]
  rfl

theorem readFields_chars {depth : Nat} : ∀ (fs : List (String × Value)), fs ≠ [] →
    (∀ p ∈ fs, ReadsBack depth p.2) →
    ∀ (m : Map) (fuel room : Nat) (rest : List Char), depth < room →
      Map.Ordered (m ++ fs) →
      2 * (fieldChars fs).length + 1 ≤ fuel →
      readFields fuel room m (fieldChars fs ++ '\x7d' :: rest) = some (m ++ fs, rest)
  | [], hne, _, _, _, _, _, _, _, _ => absurd rfl hne
  | (k, v) :: fs, _, h, m, fuel, room, rest, hroom, hord, hfuel => by
    obtain ⟨fuel, rfl⟩ : ∃ k, fuel = k + 1 := ⟨fuel - 1, by omega⟩
    have hlast : Map.insert k v m = m ++ [(k, v)] := by
      refine Map.insert_last fun p hp => ?_
      exact (List.pairwise_append.mp hord).2.2 p hp (k, v) List.mem_cons_self
    have hkey := length_escaped k.toList
    cases fs with
    | nil =>
      simp only [fieldChars, renderStr_toList, List.length_append, List.length_cons] at hfuel
      have hv := h (k, v) List.mem_cons_self fuel room ('\x7d' :: rest) hroom
        (show 2 * (chars v).length ≤ fuel by omega) (stops_of _ (.inr (.inr rfl)))
      simp only [fieldChars, List.append_assoc, List.cons_append]
      rw [readFields_step m (by omega) hv, skipBlank_cons _ (by decide)]
      simp only [hlast]
    | cons p ps =>
      simp only [fieldChars, renderStr_toList, List.length_append, List.length_cons] at hfuel
      have hv := h (k, v) List.mem_cons_self fuel room
        (',' :: (fieldChars (p :: ps) ++ '\x7d' :: rest)) hroom
        (show 2 * (chars v).length ≤ fuel by omega) (stops_of _ (.inl rfl))
      have hord' : Map.Ordered ((m ++ [(k, v)]) ++ p :: ps) := by
        rw [List.append_assoc]
        exact hord
      have hrest := readFields_chars (p :: ps) (List.cons_ne_nil _ _)
        (fun q hq => h q (List.mem_cons_of_mem _ hq)) (m ++ [(k, v)]) fuel room rest hroom hord'
        (by omega)
      simp only [fieldChars, List.append_assoc, List.cons_append]
      rw [readFields_step m (by omega) hv, skipBlank_cons _ (by decide)]
      simp only [hlast, hrest, List.append_assoc]
      rfl

theorem readsBack {depth : Nat} {v : Value} (h : Exact depth v) : ReadsBack depth v := by
  induction h with
  | null d =>
    intro fuel room rest _ hfuel _
    rw [chars_null] at hfuel ⊢
    obtain ⟨fuel, rfl⟩ : ∃ k, fuel = k + 1 := ⟨fuel - 1, by simp at hfuel; omega⟩
    simp [readValue, skipBlank, readWord]
  | bool d b =>
    intro fuel room rest _ hfuel _
    rw [chars_bool] at hfuel ⊢
    obtain ⟨fuel, rfl⟩ : ∃ k, fuel = k + 1 := ⟨fuel - 1, by cases b <;> simp at hfuel <;> omega⟩
    cases b <;> simp [readValue, skipBlank, readWord]
  | posInt d n =>
    intro fuel room rest _ hfuel hr
    rw [chars_posInt] at hfuel ⊢
    have hnum := readNumber_toDigits n.toNat n.toNat_lt false hr
    obtain ⟨c, cs, hdig, hc⟩ := toDigits_cons n.toNat
    obtain ⟨fuel, rfl⟩ : ∃ k, fuel = k + 1 := ⟨fuel - 1, by rw [hdig] at hfuel; simp at hfuel; omega⟩
    rw [hdig, List.cons_append] at hnum ⊢
    obtain ⟨hblank, hn, ht, hf, hq, hm⟩ := digit_ne hc
    rw [readValue, skipBlank_cons _ hblank]
    simp only [if_neg hn, if_neg ht, if_neg hf, if_neg hq, if_neg hm, isAsciiDigit_of_isDigit hc,
      if_true, hnum]
    simp [mkInt]
  | negInt d n hn =>
    intro fuel room rest _ hfuel hr
    rw [chars_negInt] at hfuel ⊢
    obtain ⟨fuel, rfl⟩ : ∃ k, fuel = k + 1 := ⟨fuel - 1, by simp at hfuel; omega⟩
    have hlow : -2 ^ 63 ≤ n.toInt := Int64.le_toInt n
    have hnum := readNumber_toDigits (-n.toInt).toNat (by omega) true hr
    rw [mkInt_negInt n hn] at hnum
    rw [List.cons_append, readValue, skipBlank_cons _ (by decide)]
    simp [hnum]
  | string d s =>
    intro fuel room rest _ hfuel _
    rw [chars_string] at hfuel ⊢
    obtain ⟨fuel, rfl⟩ : ∃ k, fuel = k + 1 := ⟨fuel - 1, by simp at hfuel; omega⟩
    have hlen := length_escaped s.toList
    simp only [List.length_cons, List.length_append] at hfuel
    have hstr := readStr_escaped s.toList [] rest fuel (by omega)
    simp only [List.reverse_nil, List.nil_append, String.ofList_toList] at hstr
    rw [List.cons_append, List.append_assoc, readValue, skipBlank_cons _ (by decide)]
    simp [hstr]
  | @array d vs h ih =>
    intro fuel room rest hroom hfuel _
    rw [chars_array] at hfuel ⊢
    simp only [List.length_cons, List.length_append] at hfuel
    obtain ⟨fuel, rfl⟩ : ∃ k, fuel = k + 1 := ⟨fuel - 1, by omega⟩
    have hdeep : ¬ room ≤ 1 := by omega
    have hdig : isAsciiDigit '[' = false := by decide
    rw [List.cons_append, List.append_assoc, List.cons_append, List.nil_append, readValue,
      skipBlank_cons _ (by decide)]
    cases vs with
    | nil => simp [itemChars, skipBlank, hdeep, hdig]
    | cons v vs =>
      have hitems := readItems_chars (v :: vs) (List.cons_ne_nil _ _) ih fuel (room - 1) rest
        (by omega) (by omega)
      have hopens : Opens (itemChars (v :: vs) ++ ']' :: rest) := by
        have hv := h v List.mem_cons_self
        cases vs with
        | nil => exact opens_chars hv _
        | cons w vs =>
          simp only [itemChars, List.append_assoc]
          exact opens_chars hv _
      cases htext : itemChars (v :: vs) ++ ']' :: rest with
      | nil => simp at htext
      | cons c cs =>
        rw [htext] at hitems hopens
        simp only [Char.reduceEq, if_false, if_true, hdig, Bool.false_eq_true, if_neg hdeep,
          skipBlank_cons _ hopens.1]
        split
        next heq => exact absurd (List.cons.inj heq).1 hopens.2.1
        · rw [hitems]
          rfl
  | @object d fs h ho ih =>
    intro fuel room rest hroom hfuel _
    rw [chars_object] at hfuel ⊢
    simp only [List.length_cons, List.length_append] at hfuel
    obtain ⟨fuel, rfl⟩ : ∃ k, fuel = k + 1 := ⟨fuel - 1, by omega⟩
    have hdeep : ¬ room ≤ 1 := by omega
    have hdig : isAsciiDigit '\x7b' = false := by decide
    rw [List.cons_append, List.append_assoc, List.cons_append, List.nil_append, readValue,
      skipBlank_cons _ (by decide)]
    cases fs with
    | nil => simp [fieldChars, skipBlank, hdeep, hdig]
    | cons p fs =>
      have hfields := readFields_chars (p :: fs) (List.cons_ne_nil _ _) ih [] fuel (room - 1) rest
        (by omega) ho (by omega)
      obtain ⟨cs, htext⟩ : ∃ cs, fieldChars (p :: fs) ++ '\x7d' :: rest = '"' :: cs := by
        obtain ⟨k, v⟩ := p
        cases fs with
        | nil => exact ⟨_, by simp only [fieldChars, renderStr_toList, List.cons_append]; rfl⟩
        | cons q fs => exact ⟨_, by simp only [fieldChars, renderStr_toList, List.cons_append]; rfl⟩
      rw [htext] at hfields ⊢
      simp only [Char.reduceEq, if_false, if_true, hdig, Bool.false_eq_true, if_neg hdeep,
        skipBlank_cons cs (show '"' ≠ ' ' ∧ '"' ≠ '\n' ∧ '"' ≠ '\t' ∧ '"' ≠ '\r' by decide)]
      split
      next heq => exact absurd (List.cons.inj heq).1 (by decide)
      · rw [hfields]
        rfl

theorem fromStr_render {depth : Nat} {v : Value} (h : Exact depth v) (hd : depth < 128) :
    fromStr v.render = some v := by
  have hread := readsBack h (2 * (chars v).length + 2) 128 [] hd (by omega) trivial
  rw [List.append_nil] at hread
  unfold fromStr
  rw [show v.render.toList = chars v from rfl, hread]
  rfl

theorem mem_itemChars {d : Char} {vs : List Value} (h : d ∈ itemChars vs) : d = ',' ∨ ∃ v ∈ vs, d ∈ chars v := by
  induction vs with
  | nil => cases h
  | cons v vs ih =>
    cases vs with
    | nil => exact .inr ⟨v, List.mem_cons_self .., h⟩
    | cons w vs =>
      rw [itemChars, List.mem_append, List.mem_cons] at h
      rcases h with h | h | h
      · exact .inr ⟨v, List.mem_cons_self .., h⟩
      · exact .inl h
      · exact (ih h).imp id fun ⟨x, hx, hd⟩ => ⟨x, List.mem_cons_of_mem _ hx, hd⟩

theorem mem_fieldChars {d : Char} {fs : List (String × Value)} (h : d ∈ fieldChars fs) :
    d = ',' ∨ d = ':' ∨ ∃ p ∈ fs, d ∈ (renderStr p.1).toList ∨ d ∈ chars p.2 := by
  induction fs with
  | nil => cases h
  | cons p fs ih =>
    obtain ⟨k, v⟩ := p
    cases fs with
    | nil =>
      rw [fieldChars, List.mem_append, List.mem_cons] at h
      rcases h with h | h | h
      · exact .inr (.inr ⟨(k, v), List.mem_cons_self .., .inl h⟩)
      · exact .inr (.inl h)
      · exact .inr (.inr ⟨(k, v), List.mem_cons_self .., .inr h⟩)
    | cons q fs =>
      rw [fieldChars, List.mem_append, List.mem_cons, List.mem_append, List.mem_cons] at h
      rcases h with h | h | h | h | h
      · exact .inr (.inr ⟨(k, v), List.mem_cons_self .., .inl h⟩)
      · exact .inr (.inl h)
      · exact .inr (.inr ⟨(k, v), List.mem_cons_self .., .inr h⟩)
      · exact .inl h
      · exact (ih h).imp id (Or.imp id fun ⟨x, hx, hd⟩ => ⟨x, List.mem_cons_of_mem _ hx, hd⟩)

theorem chars_printable {depth : Nat} {v : Value} (h : Exact depth v) : ∀ c ∈ chars v, 32 ≤ c.toNat := by
  induction h with
  | null =>
    rw [chars_null]
    exact printable_of_all (by decide)
  | bool d b =>
    rw [chars_bool]
    cases b <;> exact printable_of_all (by decide)
  | posInt d n =>
    rw [chars_posInt]
    exact toDigits_printable _
  | negInt d n hn =>
    rw [chars_negInt]
    exact List.forall_mem_cons.mpr ⟨by decide, toDigits_printable _⟩
  | string d s => exact renderStr_printable s
  | @array d vs h ih =>
    rw [chars_array]
    intro c hc
    rw [List.mem_cons, List.mem_append, List.mem_singleton] at hc
    rcases hc with rfl | hc | rfl
    · decide
    · rcases mem_itemChars hc with rfl | ⟨v, hv, hc⟩
      · decide
      · exact ih v hv c hc
    · decide
  | @object d fs h ho ih =>
    rw [chars_object]
    intro c hc
    rw [List.mem_cons, List.mem_append, List.mem_singleton] at hc
    rcases hc with rfl | hc | rfl
    · decide
    · rcases mem_fieldChars hc with rfl | rfl | ⟨p, hp, hc | hc⟩
      · decide
      · decide
      · exact renderStr_printable p.1 c hc
      · exact ih p hp c hc
    · decide

end Vejas.Json
