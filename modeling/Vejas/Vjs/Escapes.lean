import Vejas.Lib.Filling
import Vejas.Vjs.Cuts

/-! Placeholders and the backslashes before them. A backslash takes the dollar sign of a placeholder
that follows it; filled in with nothing, the placeholder leaves it to what comes after. -/

namespace Vejas.Vjs
open Rust Filling

def mark (k : Bytes) : Bytes := byte '$' :: byte '\x7b' :: (k ++ [byte '\x7d'])

def Plain (v : Bytes) : Prop :=
  ∀ b ∈ v, b ≠ byte '"' ∧ b ≠ byte '\\' ∧ b ≠ byte '\n' ∧ b ≠ byte '\x7b' ∧ b ≠ byte '\x7d'

def fillAll (params : List (Bytes × Bytes)) (w : Bytes) : Bytes :=
  params.foldl (fun w p => fill (mark p.1) p.2 w) w

/-- Begins with a dollar sign, and with one of these bytes once these parameters have some values. -/
def Exposed (keys : List Bytes) (ends : List UInt8) (w : Bytes) : Prop :=
  w.head? = some (byte '$') ∧ ∃ params : List (Bytes × Bytes), params.map (·.1) = keys ∧ (∀ p ∈ params, Plain p.2) ∧
    ∃ b ∈ ends, (fillAll params w).head? = some b

theorem mark_ne_nil (k : Bytes) : mark k ≠ [] := List.cons_ne_nil _ _

theorem head_fillAll {params : List (Bytes × Bytes)} {w : Bytes} (h : w.head? ≠ some (byte '$')) :
    (fillAll params w).head? = w.head? := by
  induction params generalizing w with
  | nil => rfl
  | cons p params ih =>
    have hhead : (fill (mark p.1) p.2 w).head? = w.head? := head_fill h
    have hrest := ih (w := fill (mark p.1) p.2 w) (by rwa [hhead])
    exact hrest.trans hhead

section
variable {k v : Bytes} {keys : List Bytes} {ends : List UInt8} {w : Bytes} (hv : Plain v)
include hv

theorem Exposed.of_fill (h : Exposed keys ends (fill (mark k) v w)) : Exposed (k :: keys) ends w := by
  obtain ⟨hdollar, params, hkeys, hparams, hend⟩ := h
  refine ⟨?_, (k, v) :: params, ?_, List.forall_mem_cons.mpr ⟨hv, hparams⟩, hend⟩
  · by_contra hne
    have hkept : (fill (mark k) v w).head? = w.head? := head_fill hne
    exact hne (hkept.symm.trans hdollar)
  · rw [List.map_cons, hkeys]

theorem head_safe (hends : byte '$' ∉ ends) (hsafe : ¬ Exposed (k :: keys) ends w) (hdollar : w.head? = some (byte '$'))
    {d : UInt8} {r : Bytes} (hd : fill (mark k) v w = d :: r) : d ∉ ends := by
  intro hin
  have hne : (d :: r).head? ≠ some (byte '$') := fun heq => hends (Option.some.inj heq ▸ hin)
  refine hsafe ⟨hdollar, (k, v) :: keys.map (·, []), ?_, ?_, d, hin, ?_⟩
  · simp [Function.comp_def]
  · refine List.forall_mem_cons.mpr ⟨hv, fun p hp => ?_⟩
    obtain ⟨key, -, rfl⟩ := List.mem_map.mp hp
    exact fun b hb => absurd hb List.not_mem_nil
  · have hkept : (fillAll (keys.map (·, [])) (d :: r)).head? = (d :: r).head? := head_fillAll hne
    rw [← hd] at hkept
    exact hkept.trans (hd ▸ rfl)

end

def strEnds : List UInt8 := [byte '"', byte '\\']

def fEnds : List UInt8 := [byte '"', byte '\\', byte '\x7b']

theorem notMem_strEnds {d : UInt8} (h : d ∉ strEnds) : d ≠ byte '"' ∧ d ≠ byte '\\' := by
  simp only [strEnds, List.mem_cons, List.not_mem_nil, or_false, not_or] at h
  exact h

/-- A string after its opening quote, where no backslash comes to stand before the closing quote or
another backslash. -/
inductive Shut (keys : List Bytes) : Bytes → Prop
  | close : Shut keys [byte '"']
  | plain {c : UInt8} {w : Bytes} (hc : c ≠ byte '"' ∧ c ≠ byte '\\') (h : Shut keys w) : Shut keys (c :: w)
  | escape {e : UInt8} {w : Bytes} (he : ¬ Exposed keys strEnds (e :: w)) (h : Shut keys w) :
      Shut keys (byte '\\' :: e :: w)

section
variable {keys : List Bytes}

theorem Shut.quoted {w : Bytes} (h : Shut keys w) : Quoted w := by
  induction h with
  | close => exact .close
  | plain hc _ ih => exact .plain hc ih
  | escape _ _ ih => exact .escape _ ih

theorem Shut.ne_nil {w : Bytes} (h : Shut keys w) : w ≠ [] := by
  cases h with
  | close => exact List.cons_ne_nil _ _
  | plain => exact List.cons_ne_nil _ _
  | escape => exact List.cons_ne_nil _ _

theorem Shut.tail {c : UInt8} {w : Bytes} (h : Shut keys (c :: w)) (hc : c ≠ byte '"' ∧ c ≠ byte '\\') : Shut keys w := by
  generalize hx : c :: w = x at h
  cases h with
  | close => exact absurd (List.cons.inj hx).1 hc.1
  | plain _ h =>
    rw [(List.cons.inj hx).2]
    exact h
  | escape => exact absurd (List.cons.inj hx).1 hc.2

theorem shut_append_iff {v w : Bytes} (hv : ∀ b ∈ v, b ≠ byte '"' ∧ b ≠ byte '\\') : Shut keys (v ++ w) ↔ Shut keys w := by
  induction v with
  | nil => exact Iff.rfl
  | cons c v ih =>
    have hc := hv c List.mem_cons_self
    have ih := ih fun b hb => hv b (List.mem_cons_of_mem _ hb)
    exact ⟨fun h => ih.mp (h.tail hc), fun h => .plain hc (ih.mpr h)⟩

end

section
variable {k v : Bytes} (hk : ∀ b ∈ k, isWordByte b = true)
include hk

theorem notMem_key {b : UInt8} (hb : isWordByte b = false) : b ∉ k := by
  intro hin
  rw [hk b hin] at hb
  cases hb

theorem notMem_mark {b : UInt8} (hb : isWordByte b = false)
    (hne : b ≠ byte '$' ∧ b ≠ byte '\x7b' ∧ b ≠ byte '\x7d') : b ∉ mark k := by
  unfold mark
  simp only [List.mem_cons, List.mem_append, List.not_mem_nil, or_false, not_or]
  exact ⟨hne.1, hne.2.1, notMem_key hk hb, hne.2.2⟩

theorem mark_shut : ∀ b ∈ mark k, b ≠ byte '"' ∧ b ≠ byte '\\' := by
  intro b hb
  refine ⟨?_, ?_⟩ <;> rintro rfl
  · exact notMem_mark hk (by decide) (by decide) hb
  · exact notMem_mark hk (by decide) (by decide) hb

variable (hv : Plain v) {keys : List Bytes}
include hv

theorem Shut.fill {w : Bytes} (h : Shut (k :: keys) w) : Shut keys (fill (mark k) v w) := by
  induction hn : w.length using Nat.strong_induction_on generalizing w with
  | _ n ih =>
    subst hn
    have hvs : ∀ b ∈ v, b ≠ byte '"' ∧ b ≠ byte '\\' := fun b hb => ⟨(hv b hb).1, (hv b hb).2.1⟩
    have hpos := List.length_pos_iff.mpr (mark_ne_nil k)
    -- the rest behind a placeholder, filled in
    have hpast : ∀ {w'}, (mark k ++ w').length ≤ w.length → Shut (k :: keys) (mark k ++ w') →
        Shut keys (Filling.fill (mark k) v w') := by
      intro w' hlen h'
      rw [List.length_append] at hlen
      exact ih w'.length (by omega) ((shut_append_iff (mark_shut hk)).mp h') rfl
    by_cases hpre : mark k <+: w
    · obtain ⟨w, rfl⟩ := hpre
      rw [fill_pat (mark_ne_nil k), shut_append_iff hvs]
      exact hpast (Nat.le_refl _) h
    cases h with
    | close =>
      rw [fill_cons hpre]
      exact .close
    | @plain c w hc h =>
      rw [fill_cons hpre]
      exact .plain hc (ih w.length (Nat.lt_succ_self _) h rfl)
    | @escape e w he h =>
      obtain ⟨d, r, hd, hr⟩ : ∃ d r, Filling.fill (mark k) v (e :: w) = d :: r ∧ Shut keys r := by
        by_cases hpre' : mark k <+: e :: w
        · obtain ⟨w', hw'⟩ := hpre'
          have hdollar : (e :: w).head? = some (byte '$') := by
            rw [← hw']
            rfl
          have hmark : Shut (k :: keys) (mark k ++ w') := by
            have hsame : e = byte '$' := Option.some.inj hdollar
            rw [hw', hsame]
            exact .plain (by decide) h
          have hrest := hpast (by rw [hw', List.length_cons, List.length_cons, List.length_cons]; omega) hmark
          have hfill : Filling.fill (mark k) v (e :: w) = v ++ Filling.fill (mark k) v w' := by
            rw [← hw', fill_pat (mark_ne_nil k)]
          cases v with
          | nil =>
            -- emptied, the placeholder leaves the backslash the next byte
            obtain ⟨d, r, hd⟩ := List.exists_cons_of_ne_nil hrest.ne_nil
            rw [List.nil_append, hd] at hfill
            have hsafe := notMem_strEnds (head_safe hv (by decide) he hdollar hfill)
            rw [hd] at hrest
            exact ⟨d, r, hfill, hrest.tail hsafe⟩
          | cons d v =>
            exact ⟨d, _, hfill, (shut_append_iff fun b hb => hvs b (List.mem_cons_of_mem _ hb)).mpr hrest⟩
        · exact ⟨e, _, fill_cons hpre', ih w.length (by simp only [List.length_cons]; omega) h rfl⟩
      have hsafe : ¬ Exposed keys strEnds (d :: r) := fun hx => he (Exposed.of_fill hv (hd ▸ hx))
      rw [fill_cons hpre, hd]
      exact .escape hsafe hr

end

end Vejas.Vjs
