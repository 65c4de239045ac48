import Mathlib.Data.Bool.AllAny
import Vejas.Connectors.HttpIn

/-! Where the driver `http-in` takes a request to end, against where it ends. -/

namespace Vejas.HttpIn
open Rust Vjs Framing

structure Request where
  head : Head
  body : Bytes
  complete : body.length = head.declared
  fits : head.bytes.length + body.length < 2 ^ 64

namespace Request

def bytes (r : Request) : Bytes := r.head.bytes ++ r.body

def own (r : Request) : String × Bytes := (r.head.line, r.body)

end Request

/-- A request that ends before its body does, or is too long: the part of its body that was written. -/
structure Cut where
  head : Head
  part : Bytes
  fits : head.bytes.length + part.length < 2 ^ 64

def Cut.bytes (c : Cut) : Bytes := c.head.bytes ++ c.part

namespace Head
variable {h : Head} {part buf : Bytes}

theorem headerEnd_of_le (hp : buf <+: h.bytes ++ part) (hle : h.bytes.length ≤ buf.length) :
    headerEnd buf = some h.bytes.length ∧ buf.take h.bytes.length = h.bytes := by
  have hpre : h.bytes <+: buf := List.prefix_of_prefix_length_le ⟨part, rfl⟩ hp hle
  obtain ⟨more, rfl⟩ := hpre
  exact ⟨h.headerEnd_eq more, List.take_left⟩

theorem headerEnd_of_lt (hp : buf <+: h.bytes ++ part) (hlt : buf.length < h.bytes.length) : headerEnd buf = none := by
  obtain ⟨more, hmore⟩ := hp
  cases hb : headerEnd buf with
  | none => rfl
  | some he =>
    have happ := headerEnd_append hb more
    rw [hmore, h.headerEnd_eq part] at happ
    have := headerEnd_le hb
    cases happ
    omega

theorem stops_iff (hfit : h.bytes.length < 2 ^ 64) (hp : buf <+: h.bytes ++ part) :
    stops buf = true ↔ 1048576 < buf.length ∨ (h.bytes.length ≤ buf.length ∧
      (2 ^ 64 ≤ h.bytes.length + h.declared ∨ h.bytes.length + h.declared ≤ buf.length)) := by
  unfold stops
  rw [Bool.or_eq_true, decide_eq_true_eq]
  by_cases hle : h.bytes.length ≤ buf.length
  · obtain ⟨hend, htake⟩ := headerEnd_of_le hp hle
    rw [hend]
    simp only [htake, h.contentLength_eq, decide_eq_true_eq]
    split
    next hlt =>
      by_cases hsum : h.bytes.length + h.declared < 2 ^ 64
      · rw [Nat.mod_eq_of_lt hsum]
        omega
      · omega
    next hge =>
      rw [Nat.add_zero, Nat.mod_eq_of_lt hfit]
      omega
  · rw [headerEnd_of_lt hp (Nat.lt_of_not_le hle)]
    simp only [Bool.false_eq_true, false_or]
    omega

end Head

inductive Ending
  | closed
  | failed
  | late

def Ending.read : Ending → Read
  | closed => .ok []
  | failed => .err
  | late => .late

theorem handed_ending (e : Ending) : handed [e.read] = [] := by cases e <;> rfl

theorem frames_ending (buf : Bytes) (e : Ending) :
    frames buf (headerEnd buf) [e.read] = Frame.ofHeader buf true (headerEnd buf) := by cases e <;> rfl

theorem handed_frame {h : Head} {part buf : Bytes} (hp : buf <+: h.bytes ++ part) (hle : h.bytes.length ≤ buf.length)
    (eof : Bool) : (Frame.mk buf h.bytes.length eof).line = h.line := by
  have hpre : h.bytes <+: buf := List.prefix_of_prefix_length_le ⟨part, rfl⟩ hp hle
  obtain ⟨more, rfl⟩ := hpre
  exact h.line_eq more

section
variable {h : Head} {part : Bytes} {q : List Bytes}

theorem handed_first (hne : ∀ c ∈ q, c ≠ []) (hq : First stops q) (hp : q.flatten <+: h.bytes ++ part)
    (rs : List Read) :
    handed (q.map .ok ++ rs) =
      if h.bytes.length ≤ q.flatten.length then (h.line, q.flatten.drop h.bytes.length) :: handed rs else [] := by
  have hf := frames_first [] hne hq rs
  rw [List.nil_append] at hf
  unfold handed
  show List.map _ (frames [] (headerEnd []) _) = _
  rw [hf]
  by_cases hle : h.bytes.length ≤ q.flatten.length
  · rw [(Head.headerEnd_of_le hp hle).1, if_pos hle]
    simp only [List.map_cons, handed_frame hp hle, Frame.body]
  · rw [Head.headerEnd_of_lt hp (Nat.lt_of_not_le hle), if_neg hle]
    rfl

theorem handed_never (hne : ∀ c ∈ q, c ≠ []) (hq : Never stops q) (hp : q.flatten <+: h.bytes ++ part) (e : Ending) :
    handed (q.map .ok ++ [e.read]) =
      if h.bytes.length ≤ q.flatten.length then [(h.line, q.flatten.drop h.bytes.length)] else [] := by
  have hf := frames_never [] hne hq [e.read]
  rw [List.nil_append, frames_ending] at hf
  unfold handed
  show List.map _ (frames [] (headerEnd []) _) = _
  rw [hf]
  by_cases hle : h.bytes.length ≤ q.flatten.length
  · rw [(Head.headerEnd_of_le hp hle).1, if_pos hle]
    simp only [Frame.ofHeader, List.map_cons, List.map_nil, handed_frame hp hle, Frame.body]
  · rw [Head.headerEnd_of_lt hp (Nat.lt_of_not_le hle), if_neg hle]
    rfl

end

/-- Every request ends where a read ends, and before its last read it is within the limit. `rest` are
the reads after the requests. -/
def Aligned : List Request → List Bytes → List Bytes → Prop
  | [], cs, rest => cs = rest
  | r :: rs, cs, rest => ∃ q cs', cs = q ++ cs' ∧ q.flatten = r.bytes ∧
      (∀ p, p <+: q → p ≠ q → p.flatten.length ≤ 1048576) ∧ Aligned rs cs' rest

theorem flatten_length_lt {p q : List Bytes} (hne : ∀ c ∈ q, c ≠ []) (hpre : p <+: q) (h : p ≠ q) :
    p.flatten.length < q.flatten.length := by
  obtain ⟨t, rfl⟩ := hpre
  cases t with
  | nil => exact absurd (List.append_nil p).symm h
  | cons c t =>
    have hc : c ≠ [] := hne c (List.mem_append_right _ (List.mem_cons_self ..))
    have := List.length_pos_of_ne_nil hc
    simp only [List.flatten_append, List.flatten_cons, List.length_append]
    omega

theorem Request.stops_iff (r : Request) {buf w : Bytes} (hp : buf <+: r.bytes ++ w) :
    stops buf = true ↔ 1048576 < buf.length ∨ r.bytes.length ≤ buf.length := by
  have hfits := r.fits
  have hlen : r.bytes.length = r.head.bytes.length + r.head.declared := by
    rw [Request.bytes, List.length_append, r.complete]
  rw [Request.bytes, List.append_assoc] at hp
  rw [Head.stops_iff (by omega) hp, hlen]
  rw [r.complete] at hfits
  omega

theorem Request.bytes_ne_nil (r : Request) : r.bytes ≠ [] := by
  intro h
  have hhead : r.head.bytes = [] := (List.append_eq_nil_iff.mp h).1
  have := headerEnd_le (r.head.headerEnd_eq [])
  rw [hhead] at this
  simp at this

theorem Request.first (r : Request) {q : List Bytes} (hne : ∀ c ∈ q, c ≠ []) (hq : q.flatten = r.bytes)
    (hlim : ∀ p, p <+: q → p ≠ q → p.flatten.length ≤ 1048576) : First stops q := by
  have hpre : ∀ p, p <+: q → p.flatten <+: r.bytes ++ [] := by
    rintro p ⟨t, rfl⟩
    rw [List.append_nil, ← hq, List.flatten_append]
    exact ⟨_, rfl⟩
  refine ⟨?_, ?_, ?_⟩
  · rintro rfl
    exact r.bytes_ne_nil hq.symm
  · rw [r.stops_iff (hpre q (List.prefix_refl q)), hq]
    exact .inr (Nat.le_refl _)
  · intro p _ hp hpq
    rw [← Bool.not_eq_true, r.stops_iff (hpre p hp), ← hq]
    have hlt := flatten_length_lt hne hp hpq
    have := hlim p hp hpq
    omega

theorem handed_request (r : Request) {q : List Bytes} (hne : ∀ c ∈ q, c ≠ []) (hq : q.flatten = r.bytes)
    (hlim : ∀ p, p <+: q → p ≠ q → p.flatten.length ≤ 1048576) (rs : List Read) :
    handed (q.map .ok ++ rs) = r.own :: handed rs := by
  have hp : q.flatten <+: r.head.bytes ++ r.body := by
    rw [hq]
    exact List.prefix_refl _
  rw [handed_first hne (r.first hne hq hlim) hp, hq, Request.bytes, if_pos (by simp), List.drop_left]
  rfl

theorem handed_aligned {rs : List Request} {cs rest : List Bytes} (h : Aligned rs cs rest) (hne : ∀ c ∈ cs, c ≠ [])
    (more : List Read) : handed (cs.map .ok ++ more) = rs.map Request.own ++ handed (rest.map .ok ++ more) := by
  induction rs generalizing cs with
  | nil =>
    rw [show cs = rest from h]
    rfl
  | cons r rs ih =>
    obtain ⟨q, cs', rfl, hq, hlim, hrest⟩ := h
    rw [List.map_append, List.append_assoc,
      handed_request r (fun c hc => hne c (List.mem_append_left _ hc)) hq hlim,
      ih hrest fun c hc => hne c (List.mem_append_right _ hc)]
    rfl

theorem aligned_of_handed {rs : List Request} {cs : List Bytes} {w : Bytes} {more : List Read}
    (hne : ∀ c ∈ cs, c ≠ []) (hcs : cs.flatten = rs.flatMap Request.bytes ++ w)
    (h : rs.map Request.own <+: handed (cs.map .ok ++ more)) : ∃ rest, Aligned rs cs rest := by
  induction rs generalizing cs with
  | nil => exact ⟨cs, rfl⟩
  | cons r rs ih =>
    rw [List.flatMap_cons, List.append_assoc] at hcs
    have hpre : ∀ {p}, p <+: cs → p.flatten <+: r.bytes ++ (rs.flatMap Request.bytes ++ w) := by
      rintro p ⟨t, rfl⟩
      rw [← hcs, List.flatten_append]
      exact ⟨_, rfl⟩
    rcases first_or_never stops cs with ⟨q, cs', rfl, hq⟩ | hnever
    · have hneq : ∀ c ∈ q, c ≠ [] := fun c hc => hne c (List.mem_append_left _ hc)
      have hqpre := hpre (List.prefix_append q cs')
      have hhead : q.flatten <+: r.head.bytes ++ (r.body ++ (rs.flatMap Request.bytes ++ w)) := by
        rw [← List.append_assoc]
        exact hqpre
      rw [List.map_append, List.append_assoc, handed_first hneq hq hhead] at h
      split at h
      next hle =>
        obtain ⟨hown, h⟩ := List.cons_prefix_cons.mp h
        -- the same head and the same body
        have hqr : q.flatten = r.bytes := by
          have hbody : r.body = q.flatten.drop r.head.bytes.length := congrArg Prod.snd hown
          rw [Request.bytes, hbody, ← (Head.headerEnd_of_le hhead hle).2, List.length_take, Nat.min_eq_left hle,
            List.take_append_drop]
        rw [List.flatten_append, hqr] at hcs
        obtain ⟨rest, hrest⟩ := ih (fun c hc => hne c (List.mem_append_right _ hc)) (List.append_cancel_left hcs) h
        refine ⟨rest, q, cs', rfl, hqr, ?_, hrest⟩
        intro p hp hpq
        by_cases hp0 : p = []
        · rw [hp0]
          exact Nat.zero_le _
        · have hs := hq.before p hp0 hp hpq
          rw [← Bool.not_eq_true, r.stops_iff (hpre (hp.trans (List.prefix_append q cs')))] at hs
          omega
      next => exact absurd (List.prefix_nil.mp h) nofun
    · -- the request is read to its end, where the reader stops
      exfalso
      have hnil : cs ≠ [] := by
        rintro rfl
        exact r.bytes_ne_nil (List.append_eq_nil_iff.mp hcs.symm).1
      have hs := hnever cs hnil (List.prefix_refl cs)
      rw [← Bool.not_eq_true, r.stops_iff (hpre (List.prefix_refl cs)), hcs] at hs
      simp at hs

theorem flatten_aligned {rs : List Request} {cs rest : List Bytes} (h : Aligned rs cs rest) :
    cs.flatten = rs.flatMap Request.bytes ++ rest.flatten ∧ rest <:+ cs := by
  induction rs generalizing cs with
  | nil =>
    rw [show cs = rest from h]
    exact ⟨rfl, List.suffix_refl _⟩
  | cons r rs ih =>
    obtain ⟨q, cs', rfl, hq, -, hrest⟩ := h
    obtain ⟨hflat, hsuf⟩ := ih hrest
    refine ⟨?_, hsuf.trans (List.suffix_append q cs')⟩
    rw [List.flatten_append, hq, hflat, List.flatMap_cons, List.append_assoc]

theorem suffix_unique {cs s s' : List Bytes} (hne : ∀ x ∈ cs, x ≠ []) (hs : s <:+ cs) (hs' : s' <:+ cs)
    (h : s.flatten = s'.flatten) : s = s' := by
  have key : ∀ {a b : List Bytes}, a <:+ b → b <:+ cs → a.flatten = b.flatten → a = b := by
    rintro a _ ⟨t, rfl⟩ hb heq
    cases t with
    | nil => rfl
    | cons x t =>
      exfalso
      have hx : x ≠ [] := hne x (hb.subset (List.mem_append_left _ (List.mem_cons_self ..)))
      have hpos := List.length_pos_of_ne_nil hx
      have hlen := congrArg List.length heq
      simp only [List.flatten_append, List.flatten_cons, List.length_append] at hlen
      omega
  rcases List.suffix_or_suffix_of_suffix hs hs' with hsub | hsub
  · exact key hsub hs' h
  · exact (key hsub hs h.symm).symm

def Cut.Short (c : Cut) (own : List Bytes) : Prop :=
  c.part.length < c.head.declared ∨ 2 ^ 64 ≤ c.head.bytes.length + c.head.declared ∨
    ∃ p, p <+: own ∧ 1048576 < p.flatten.length ∧ p.flatten.length < c.head.bytes.length + c.head.declared

def Head.halts (h : Head) (buf : Bytes) : Bool :=
  1048576 < buf.length || (h.bytes.length ≤ buf.length && 2 ^ 64 ≤ h.bytes.length + h.declared)

theorem Head.halts_iff (h : Head) (buf : Bytes) : h.halts buf = true ↔
    1048576 < buf.length ∨ h.bytes.length ≤ buf.length ∧ 2 ^ 64 ≤ h.bytes.length + h.declared := by
  unfold Head.halts
  rw [Bool.or_eq_true, Bool.and_eq_true, decide_eq_true_eq, decide_eq_true_eq, decide_eq_true_eq]

def Headless (cs : List Bytes) : Prop :=
  ∀ p, p <+: cs → (∀ p', p' <+: p → p' ≠ p → p'.flatten.length ≤ 1048576) → headerEnd p.flatten = none

def Harmless [External] (cfg : Config) (h : Head) (q rest : List Bytes) : Prop :=
  q.flatten.length < h.bytes.length ∨
    published cfg h.line (q.flatten.drop h.bytes.length) = none ∧ Headless rest

/-- What was read of the request when the reader stops, or the connection ends, is harmless. -/
def Contained [External] (cfg : Config) (h : Head) (own : List Bytes) : Prop :=
  ∀ q rest, own = q ++ rest → (First h.halts q ∨ rest = [] ∧ Never h.halts q) → Harmless cfg h q rest

theorem contained_of_first [External] {cfg : Config} {h : Head} {q rest : List Bytes} (hq : First h.halts q) :
    Contained cfg h (q ++ rest) ↔ Harmless cfg h q rest := by
  constructor
  · intro hc
    exact hc q rest rfl (.inl hq)
  · intro hh q' rest' heq hstop
    have hqq : q' = q := by
      rcases hstop with hq' | ⟨rfl, hn⟩
      · exact hq'.unique hq heq.symm
      · rw [List.append_nil] at heq
        have hs := hn q hq.ne_nil ⟨rest, heq⟩
        rw [hq.at_last] at hs
        cases hs
    subst hqq
    rwa [← List.append_cancel_left heq]

theorem contained_of_never [External] {cfg : Config} {h : Head} {own : List Bytes} (hn : Never h.halts own) :
    Contained cfg h own ↔ Harmless cfg h own [] := by
  constructor
  · intro hc
    exact hc own [] (List.append_nil own).symm (.inr ⟨rfl, hn⟩)
  · intro hh q rest heq hstop
    rcases hstop with hq | ⟨rfl, -⟩
    · have hs := hn q hq.ne_nil ⟨rest, heq.symm⟩
      rw [hq.at_last] at hs
      cases hs
    · rw [List.append_nil] at heq
      rwa [← heq]

section
variable {c : Cut} {own q rest : List Bytes}

theorem prefix_flatten {p cs : List Bytes} (h : p <+: cs) : p.flatten <+: cs.flatten := by
  obtain ⟨t, rfl⟩ := h
  rw [List.flatten_append]
  exact ⟨_, rfl⟩

theorem Cut.stops_iff (hown : own.flatten = c.bytes) {p : List Bytes} (hp : p <+: own) :
    stops p.flatten = true ↔
      c.head.halts p.flatten = true ∨ c.head.bytes.length ≤ p.flatten.length ∧
        c.head.bytes.length + c.head.declared ≤ p.flatten.length := by
  have hfits := c.fits
  have hpre : p.flatten <+: c.head.bytes ++ c.part := by
    have := prefix_flatten hp
    rwa [hown] at this
  rw [Head.stops_iff (by omega) hpre, Head.halts_iff]
  constructor
  · rintro (hlim | ⟨hle, hover | hsum⟩)
    · exact .inl (.inl hlim)
    · exact .inl (.inr ⟨hle, hover⟩)
    · exact .inr ⟨hle, hsum⟩
  · rintro ((hlim | ⟨hle, hover⟩) | ⟨hle, hsum⟩)
    · exact .inl hlim
    · exact .inr ⟨hle, .inl hover⟩
    · exact .inr ⟨hle, .inr hsum⟩

theorem Cut.never (hown : own.flatten = c.bytes) (h : Never stops own) : Never c.head.halts own := by
  intro p hp0 hp
  have hs := h p hp0 hp
  rw [← Bool.not_eq_true, Cut.stops_iff hown hp] at hs
  rw [← Bool.not_eq_true]
  exact fun hh => hs (.inl hh)

theorem Cut.first (hown : own.flatten = c.bytes) (hshort : c.Short own) (heq : own = q ++ rest) (h : First stops q) :
    First c.head.halts q := by
  have hq : q <+: own := ⟨rest, heq.symm⟩
  refine ⟨h.ne_nil, ?_, ?_⟩
  · rcases (Cut.stops_iff hown hq).mp h.at_last with hh | ⟨hle, hsum⟩
    · exact hh
    · rcases hshort with hpart | hover | ⟨p, hp, hlim, hlt⟩
      · -- less was written
        have hlen := (prefix_flatten hq).length_le
        rw [hown, Cut.bytes, List.length_append] at hlen
        omega
      · exact (c.head.halts_iff _).mpr (.inr ⟨hle, hover⟩)
      · -- the limit was passed before
        have hpq : p <+: q := by
          rcases List.prefix_or_prefix_of_prefix hp hq with hpq | hqp
          · exact hpq
          · have := (prefix_flatten hqp).length_le
            omega
        have hs := h.before p (by rintro rfl; simp at hlim) hpq (by rintro rfl; omega)
        rw [← Bool.not_eq_true, Cut.stops_iff hown hp] at hs
        exact absurd (.inl ((c.head.halts_iff _).mpr (.inl hlim))) hs
  · intro p hp0 hp hpq
    have hs := h.before p hp0 hp hpq
    rw [← Bool.not_eq_true, Cut.stops_iff hown (hp.trans hq)] at hs
    rw [← Bool.not_eq_true]
    exact fun hh => hs (.inl hh)

theorem limit_of_not_stops {buf : Bytes} (h : stops buf = false) : buf.length ≤ 1048576 := by
  unfold stops at h
  rw [Bool.or_eq_false_iff, decide_eq_false_iff_not] at h
  omega

theorem headerEnd_none_of_prefix {buf buf' : Bytes} (hp : buf <+: buf') (h : headerEnd buf' = none) : headerEnd buf = none := by
  obtain ⟨more, rfl⟩ := hp
  cases hb : headerEnd buf with
  | none => rfl
  | some he =>
    rw [headerEnd_append hb more] at h
    cases h

theorem handed_eq_nil_iff {cs : List Bytes} (hne : ∀ c ∈ cs, c ≠ []) (e : Ending) :
    handed (cs.map .ok ++ [e.read]) = [] ↔ Headless cs := by
  unfold handed
  show List.map _ (frames [] (headerEnd []) _) = [] ↔ _
  rw [List.map_eq_nil_iff]
  rcases first_or_never stops cs with ⟨q, rest, rfl, hq⟩ | hnever
  · rw [List.map_append, List.append_assoc, frames_first [] (fun c hc => hne c (List.mem_append_left _ hc)) hq]
    rw [List.nil_append]
    constructor
    · intro hnil p hp hlim
      have hnone : headerEnd q.flatten = none := by
        cases hh : headerEnd q.flatten with
        | none => rfl
        | some he => rw [hh] at hnil; cases hnil
      -- the reader stopped by the limit, so the reads within the limit are among those before the stop
      have hover : 1048576 < q.flatten.length := by
        have hs := hq.at_last
        unfold stops at hs
        rw [hnone] at hs
        simpa using hs
      rcases List.prefix_or_prefix_of_prefix hp (List.prefix_append q rest) with hpq | hqp
      · exact headerEnd_none_of_prefix (prefix_flatten hpq) hnone
      · by_cases heq : q = p
        · rw [← heq]
          exact hnone
        · have := hlim q hqp heq
          omega
    · intro hless
      rw [hless q (List.prefix_append q rest) ?_]
      intro p hp hpq
      by_cases hp0 : p = []
      · rw [hp0]
        exact Nat.zero_le _
      · exact limit_of_not_stops (hq.before p hp0 hp hpq)
  · rw [frames_never [] hne hnever, List.nil_append, frames_ending]
    constructor
    · intro hnil p hp _
      have hnone : headerEnd cs.flatten = none := by
        cases hh : headerEnd cs.flatten with
        | none => rfl
        | some he => rw [hh] at hnil; cases hnil
      exact headerEnd_none_of_prefix (prefix_flatten hp) hnone
    · intro hless
      rw [hless cs (List.prefix_refl cs) ?_]
      · rfl
      · intro p hp _
        by_cases hp0 : p = []
        · rw [hp0]
          exact Nat.zero_le _
        · exact limit_of_not_stops (hnever p hp0 hp)

def Silent [External] (cfg : Config) (rs : List (String × Bytes)) : Prop :=
  rs.length ≤ 1 ∧ ∀ r ∈ rs, published cfg r.1 r.2 = none

theorem silent_cons [External] (cfg : Config) (r : String × Bytes) (rs : List (String × Bytes)) :
    Silent cfg (r :: rs) ↔ published cfg r.1 r.2 = none ∧ rs = [] := by
  constructor
  · rintro ⟨hlen, hpub⟩
    rw [List.length_cons] at hlen
    exact ⟨hpub r (List.mem_cons_self ..), List.length_eq_zero_iff.mp (by omega)⟩
  · rintro ⟨hpub, rfl⟩
    refine ⟨Nat.le_refl 1, fun x hx => ?_⟩
    rw [List.mem_singleton.mp hx]
    exact hpub

theorem silent_nil [External] (cfg : Config) : Silent cfg [] := ⟨Nat.zero_le _, nofun⟩

theorem headless_nil : Headless [] := by
  intro p hp _
  rw [List.prefix_nil.mp hp]
  rfl

theorem silent_iff_contained [External] (cfg : Config) (hne : ∀ x ∈ own, x ≠ []) (hown : own.flatten = c.bytes)
    (hshort : c.Short own) (e : Ending) :
    Silent cfg (handed (own.map .ok ++ [e.read])) ↔ Contained cfg c.head own := by
  rcases first_or_never stops own with ⟨q, rest, rfl, hq⟩ | hnever
  · have hpre : q.flatten <+: c.head.bytes ++ c.part := by
      have := prefix_flatten (List.prefix_append q rest)
      rwa [hown] at this
    rw [contained_of_first (Cut.first hown hshort rfl hq), List.map_append, List.append_assoc,
      handed_first (fun x hx => hne x (List.mem_append_left _ hx)) hq hpre]
    unfold Harmless
    by_cases hle : c.head.bytes.length ≤ q.flatten.length
    · rw [if_pos hle, silent_cons, handed_eq_nil_iff fun x hx => hne x (List.mem_append_right _ hx)]
      exact ⟨.inr, fun h => h.resolve_left (Nat.not_lt_of_le hle)⟩
    · rw [if_neg hle]
      exact iff_of_true (silent_nil cfg) (.inl (Nat.lt_of_not_le hle))
  · have hpre : own.flatten <+: c.head.bytes ++ c.part := by
      rw [hown]
      exact List.prefix_refl _
    rw [contained_of_never (Cut.never hown hnever), handed_never hne hnever hpre]
    unfold Harmless
    by_cases hle : c.head.bytes.length ≤ own.flatten.length
    · rw [if_pos hle, silent_cons]
      constructor
      · intro h
        exact .inr ⟨h.1, headless_nil⟩
      · intro h
        exact ⟨(h.resolve_left (Nat.not_lt_of_le hle)).1, rfl⟩
    · rw [if_neg hle]
      exact iff_of_true (silent_nil cfg) (.inl (Nat.lt_of_not_le hle))

end

structure Traffic where
  requests : List Request
  cut : Option Cut
  chunks : List Bytes
  ending : Ending
  nonempty : ∀ x ∈ chunks, x ≠ []
  carries : chunks.flatten = requests.flatMap Request.bytes ++ (cut.map Cut.bytes).getD []

namespace Traffic

def reads (t : Traffic) : List Read := t.chunks.map .ok ++ [t.ending.read]

/-- Every complete request is answered once, by its own line and body, and nothing else is answered but
at most the one cut short, of which nothing is published. -/
structure Framed [External] (cfg : Config) (t : Traffic) : Prop where
  own : t.requests.map Request.own <+: handed t.reads
  once : t.cut = none → handed t.reads = t.requests.map Request.own
  silent : ∀ c ∈ t.cut, ∀ own, own <:+ t.chunks → own.flatten = c.bytes → c.Short own →
    Silent cfg ((handed t.reads).drop t.requests.length)

/-- Every request ends where a read ends, none passes the limit before its last read, and a request cut
short is contained. -/
def Kept [External] (cfg : Config) (t : Traffic) : Prop :=
  ∃ rest, Aligned t.requests t.chunks rest ∧ ∀ c ∈ t.cut, c.Short rest → Contained cfg c.head rest

theorem rest_flatten {t : Traffic} {rest : List Bytes} (h : Aligned t.requests t.chunks rest) :
    rest.flatten = (t.cut.map Cut.bytes).getD [] :=
  List.append_cancel_left ((flatten_aligned h).1.symm.trans t.carries)

/-- Framing follows the requests exactly when the reads do. -/
theorem framed_iff [External] (cfg : Config) (t : Traffic) : t.Framed cfg ↔ t.Kept cfg := by
  constructor
  · intro h
    obtain ⟨rest, hrest⟩ := aligned_of_handed t.nonempty t.carries h.own
    refine ⟨rest, hrest, fun c hc hshort => ?_⟩
    have hflat : rest.flatten = c.bytes := by
      rw [rest_flatten hrest, hc]
      rfl
    have hsuf := (flatten_aligned hrest).2
    have hsilent := h.silent c hc rest hsuf hflat hshort
    unfold reads at hsilent
    rw [handed_aligned hrest t.nonempty, List.drop_left' (List.length_map ..)] at hsilent
    exact (silent_iff_contained cfg (fun x hx => t.nonempty x (hsuf.subset hx)) hflat hshort t.ending).mp hsilent
  · rintro ⟨rest, hrest, hcut⟩
    have hhanded := handed_aligned hrest t.nonempty [t.ending.read]
    have hsuf := (flatten_aligned hrest).2
    have hner : ∀ x ∈ rest, x ≠ [] := fun x hx => t.nonempty x (hsuf.subset hx)
    refine ⟨⟨_, hhanded.symm⟩, fun hnone => ?_, fun c hc own hown hflat hshort => ?_⟩
    · -- nothing comes after the requests
      have hnil : rest = [] := by
        have hflat := rest_flatten hrest
        rw [hnone] at hflat
        exact suffix_unique t.nonempty hsuf (List.nil_suffix) hflat
      unfold reads
      rw [hhanded, hnil, List.map_nil, List.nil_append, handed_ending, List.append_nil]
    · have hrflat : rest.flatten = c.bytes := by
        rw [rest_flatten hrest, hc]
        rfl
      have heq : own = rest := suffix_unique t.nonempty hown hsuf (hflat.trans hrflat.symm)
      subst heq
      unfold reads
      rw [hhanded, List.drop_left' (List.length_map ..)]
      exact (silent_iff_contained cfg hner hflat hshort t.ending).mpr (hcut c hc hshort)

end Traffic

def order : Request where
  head := {
    line := "POST /ingest/orders HTTP/1.1"
    before := []
    name := "Content-Length"
    pad := [' ']
    digits := ['2']
    pad' := []
    after := []
    named := by decide
    blank := List.all_iff_forall_prop.mp (by decide)
    digits_ne := by decide
    decimal := by decide
    plain := by decide
    others := by decide }
  body := bytesOf "\x7b\x7d"
  complete := by decide
  fits := by decide

def pipelined : Traffic where
  requests := [order, order]
  cut := none
  chunks := [order.bytes ++ order.bytes]
  ending := .closed
  nonempty := by simp [order.bytes_ne_nil]
  carries := by simp

theorem pipelined_not_framed : ¬ ∀ t : Traffic, @Traffic.Framed ascii ⟨"vx", []⟩ t := by
  intro hall
  have h := @Traffic.Framed.own ascii _ _ (hall pipelined)
  obtain ⟨rest, q, cs', heq, hq, -⟩ := aligned_of_handed pipelined.nonempty pipelined.carries h
  have hpos := List.length_pos_of_ne_nil order.bytes_ne_nil
  rcases List.append_eq_singleton_iff.mp heq.symm with ⟨rfl, -⟩ | ⟨rfl, -⟩
  · exact order.bytes_ne_nil hq.symm
  · have hlen := congrArg List.length hq
    simp only [List.flatten_cons, List.flatten_nil, List.append_nil, List.length_append] at hlen
    omega

end Vejas.HttpIn
