import Vejas.Governance.Effects
import Vejas.Http.Gate

/-! All that a request can reach: the world it works on, the secrets, the dead letters, and the streams of
the server, which take what is published. -/

namespace Vejas.Http
open Json Rust Vjs Governance Fallible

/-- The counter of the proposals, the world, the secrets in the store and the dead letters in the stream. -/
structure Estate (σ δ : Type) where
  seq : UInt64
  world : World
  secrets : σ
  letters : δ

/-- What the server makes of a message below the root of the dead letters, and of one on another subject of its
own, such as `$JS.API`: it has the two buckets and the letters in its hands. -/
class Server (δ : Type) where
  capture : String → String → δ → δ
  system : String → String → Kv × Kv × δ → Kv × Kv × δ

/-- Does the server do more with a message on this subject than hand it to who listens? -/
def reserved (subject : String) : Bool := startsWith subject "$" || startsWith subject "vxdlq."

def sentSince (old new : World) : List Effect := (new.log.take (new.log.length - old.log.length)).reverse

namespace Estate
variable {σ δ : Type} [Server δ]

def take (e : Estate σ δ) (subject payload : String) : Estate σ δ :=
  match stripStart subject "$KV.VEJAS_VERSIONS.", stripStart subject "$KV.VEJAS_PROPOSALS." with
  -- a key of a bucket is a subject, and its value what was published there last
  | some key, _ => { e with world := { e.world with versions := e.world.versions.put key payload } }
  | none, some key => { e with world := { e.world with proposals := e.world.proposals.put key payload } }
  | none, none =>
    if startsWith subject "$" then
      let (versions, proposals, letters) := Server.system subject payload (e.world.versions, e.world.proposals, e.letters)
      { e with world := { e.world with versions, proposals }, letters }
    else if startsWith subject "vxdlq." then { e with letters := Server.capture subject payload e.letters }
    else e

def receive (e : Estate σ δ) : Effect → Estate σ δ
  | .publish subject payload => e.take subject payload
  | _ => e

def settle (e : Estate σ δ) (i : Instance) : Estate σ δ :=
  (sentSince e.world i.world).foldl receive { e with seq := i.seq, world := i.world }

end Estate

abbrev Reach (σ δ α : Type) := Fallible Fault (Estate σ δ) α

section
variable {σ δ α : Type}

/-- None of these computations looks at a bucket after an emit of a flow: the server comes after it. -/
def onEstate [Server δ] (m : Fallible Fault Instance α) : Reach σ δ α := fun e =>
  let (r, i) := m ⟨e.seq, e.world⟩
  (r, e.settle i)

def inWorld [Server δ] (m : Gov α) : Reach σ δ α := onEstate (onWorld m)

def refuse (msg : String) : Reach σ δ α := .throw (.err msg)

def told (m : Reach σ δ α) : Reach σ δ (Except String α) := fun e =>
  match m e with
  | (.ok a, e) => (.ok (.ok a), e)
  | (.error (.err msg), e) => (.ok (.error msg), e)
  | (.error f, e) => (.error f, e)

end

variable {σ δ : Type} [Server δ] {A : Effect → Prop}

omit [Server δ] in
theorem stripStart_free {subject pre : String} (hpre : startsWith pre "$" = true) (h : reserved subject = false) :
    stripStart subject pre = none := by
  refine Option.eq_none_iff_forall_ne_some.mpr fun t ht => ?_
  rw [stripStart_eq_some_iff] at ht
  have hdollar : startsWith subject "$" = true := by
    unfold startsWith at hpre ⊢
    rw [List.isPrefixOf_iff_prefix] at hpre ⊢
    rw [ht, String.toList_append]
    exact hpre.trans (List.prefix_append _ _)
  unfold reserved at h
  rw [hdollar] at h
  cases h

theorem take_free (e : Estate σ δ) {subject : String} (payload : String) (h : reserved subject = false) :
    e.take subject payload = e := by
  have hversions : stripStart subject "$KV.VEJAS_VERSIONS." = none := stripStart_free (by decide) h
  have hproposals : stripStart subject "$KV.VEJAS_PROPOSALS." = none := stripStart_free (by decide) h
  unfold reserved at h
  rw [Bool.or_eq_false_iff] at h
  unfold Estate.take
  rw [hversions, hproposals]
  simp [h.1, h.2]

theorem files_take (e : Estate σ δ) (subject payload : String) : (e.take subject payload).world.files = e.world.files := by
  unfold Estate.take
  split
  · rfl
  · rfl
  · split
    · rfl
    · split <;> rfl

theorem log_after (w : World) (effect : Effect) : (w.after effect).log = effect :: w.log ∨ (w.after effect).log = w.log := by
  cases effect with
  | publish subject payload => exact .inl rfl
  | write path text => exact .inl rfl
  | put bucket key value => cases bucket <;> exact .inl rfl
  | delete bucket key =>
    cases bucket with
    | versions => exact .inl rfl
    | proposals => exact .inr rfl
  | rewrite src => exact .inl rfl

theorem log_of_takes {w w' : World} (h : Relation.ReflTransGen (Takes A) w w') :
    ∃ sent, w'.log = sent ++ w.log ∧ ∀ effect ∈ sent, A effect := by
  induction h with
  | refl => exact ⟨[], rfl, fun _ h => absurd h List.not_mem_nil⟩
  | @tail v _ _ hstep ih =>
    obtain ⟨effect, heffect, rfl⟩ := hstep
    obtain ⟨sent, hlog, hsent⟩ := ih
    rcases log_after v effect with hnoted | hsame
    · refine ⟨effect :: sent, by rw [hnoted, hlog, List.cons_append], fun e he => ?_⟩
      rcases List.mem_cons.mp he with rfl | he
      · exact heffect
      · exact hsent e he
    · exact ⟨sent, hsame.trans hlog, hsent⟩

theorem sentSince_of_takes {w w' : World} (h : Relation.ReflTransGen (Takes A) w w') : ∀ effect ∈ sentSince w w', A effect := by
  obtain ⟨sent, hlog, hsent⟩ := log_of_takes h
  have hsince : sentSince w w' = sent.reverse := by
    unfold sentSince
    rw [hlog, List.length_append, Nat.add_sub_cancel, List.take_left]
  intro effect heffect
  rw [hsince, List.mem_reverse] at heffect
  exact hsent effect heffect

theorem settle_free {e : Estate σ δ} {i : Instance} (hfree : ∀ subject payload, A (.publish subject payload) → reserved subject = false)
    (h : Relation.ReflTransGen (Takes A) e.world i.world) : e.settle i = { e with seq := i.seq, world := i.world } := by
  have hsame : ∀ effects : List Effect, (∀ effect ∈ effects, A effect) → ∀ d : Estate σ δ, effects.foldl Estate.receive d = d := by
    intro effects
    induction effects with
    | nil => exact fun _ _ => rfl
    | cons effect effects ih =>
      intro hall d
      have hone : d.receive effect = d := by
        cases effect with
        | publish subject payload => exact take_free d payload (hfree _ _ (hall _ List.mem_cons_self))
        | _ => rfl
      rw [List.foldl_cons, hone]
      exact ih (fun effect h => hall effect (List.mem_cons_of_mem _ h)) d
  exact hsame _ (sentSince_of_takes h) _

theorem files_settle (e : Estate σ δ) (i : Instance) : (e.settle i).world.files = i.world.files := by
  have hkept : ∀ (effects : List Effect) (d : Estate σ δ), (effects.foldl Estate.receive d).world.files = d.world.files := by
    intro effects
    induction effects with
    | nil => exact fun _ => rfl
    | cons effect effects ih =>
      intro d
      rw [List.foldl_cons, ih]
      cases effect with
      | publish subject payload => exact files_take d subject payload
      | _ => rfl
  exact hkept _ _

end Vejas.Http
