import Vejas.Runtime.Canaries

/-! Reading a canary: the rows are copied first and the counts loaded after them, while its thread goes on. -/

namespace Vejas.Runtime.Canaries
open Json Rust Vjs Governance Http Connectors Fallible

def Canary.results (c : Canary) : List Value := c.ring.reverse.take 100

/-- The boards that the loads of a read see. The map is locked meanwhile, but the threads of the canaries
do not wait for it. -/
structure Loads where
  ring : Board
  running : Board
  total : Board
  changed : Board
  stopReason : Board

def Board.load (b : Board) (id : Nat) (c : Canary) : Canary := (b.canaries[id]?).getD c

def readOut (on : Loads) (unit : String) : Value :=
  match (on.ring.latest unit).bind fun id => (on.ring.canaries[id]?).map (id, ·) with
  | none => .obj [("running", .bool false), ("flow", .string unit), ("events", .ofNat 0)]
  | some (id, c) => .obj [
      ("running", .bool (on.running.load id c).running), ("flow", .string unit),
      ("candidate_hash", .string c.plan.candidateHash), ("started_at", .ofNat c.startedAt),
      ("events", .ofNat (on.total.load id c).total), ("changed", .ofNat (on.changed.load id c).changed),
      ("stop_reason", ((on.stopReason.load id c).stopReason.map Value.string).getD .null), ("results", .array c.results)]

def canaryRead (cfg : Settings) (on : Loads) (file : String) : Gov Value := do
  let path ← guarded cfg file
  pure (readOut on (flowProcName path))

section
variable [External] {cfg : Settings} {site : Site} {b b' : Board} {task task' : Task} {τ : Type} [DecidableEq τ]
  {s : Pool.State Board Task τ}

def Choice.locks : Choice → Bool
  | .enter _ => true
  | .stop _ => true
  | _ => false

def WhileLocked (cfg : Settings) (site : Site) (s s' : Pool.State Board Task τ) : Prop :=
  ((canaries cfg site).system (· = s)).ReachableUnder (Pool.Only fun _ _ c => c.locks = false) s'

structure Later (c c' : Canary) : Prop where
  plan : c'.plan = c.plan
  recorded : c.recorded <+: c'.recorded
  counts : c.total ≤ c'.total ∧ c.changed ≤ c'.changed

omit [External] in
theorem Later.refl (c : Canary) : Later c c := ⟨rfl, List.prefix_rfl, Nat.le_refl _, Nat.le_refl _⟩

omit [External] in
theorem Later.trans {c c' c'' : Canary} (h : Later c c') (h' : Later c' c'') : Later c c'' :=
  ⟨h'.plan.trans h.plan, h.recorded.trans h'.recorded, h.counts.1.trans h'.counts.1, h.counts.2.trans h'.counts.2⟩

omit [External] in
theorem Alike.later {c c' : Canary} (h : Alike c c') : Later c c' := by
  obtain ⟨hplan, htotal, hchanged, -, hrec⟩ := h
  exact ⟨hplan, hrec ▸ List.prefix_rfl, Nat.le_of_eq htotal.symm, Nat.le_of_eq hchanged.symm⟩

structure Grows (b b' : Board) : Prop where
  canaries : ∀ (i : Nat) c, b.canaries[i]? = some c → ∃ c', b'.canaries[i]? = some c' ∧ Later c c'
  latest : b'.latest = b.latest

omit [External] in
theorem Grows.refl (b : Board) : Grows b b := ⟨fun _ c hc => ⟨c, hc, .refl c⟩, rfl⟩

omit [External] in
theorem Grows.trans {b'' : Board} (h : Grows b b') (h' : Grows b' b'') : Grows b b'' := by
  refine ⟨fun i c hc => ?_, h'.latest.trans h.latest⟩
  obtain ⟨c', hc', hl⟩ := h.canaries i c hc
  obtain ⟨c'', hc'', hl'⟩ := h'.canaries i c' hc'
  exact ⟨c'', hc'', hl.trans hl'⟩

omit [External] in
theorem Grows.world (h : Grows b b') (w : World) : Grows b { b' with world := w } := ⟨h.canaries, h.latest⟩

omit [External] in
theorem grows_onCanary (id : Nat) {f : Canary → Canary} (hf : ∀ c, Later c (f c)) : Grows b (b.onCanary id f) := by
  refine ⟨fun i c hc => ⟨_, onCanary_of hc, ?_⟩, rfl⟩
  split
  · exact hf c
  · exact .refl c

omit [External] in
theorem later_push (c : Canary) (r : Row) : Later c (c.push r) := by
  unfold Canary.push
  exact ⟨rfl, List.prefix_append _ _, Nat.le_refl _, Nat.le_refl _⟩

theorem act_grows {choice : Choice} (hlocks : choice.locks = false) (h : act cfg site b task choice = some (b', task')) :
    Grows b b' := by
  unfold act at h
  split at h
  next =>
    split at h
    · cases h
      exact (Grows.refl b).world _
    · cases h
      exact (Grows.refl b).world _
  next => cases hlocks
  next => cases hlocks
  next =>
    cases h
    exact .refl b
  next =>
    cases h
    exact .refl b
  next =>
    obtain ⟨c, -, heq⟩ := Option.map_eq_some_iff.mp h
    cases heq
    exact .refl b
  next =>
    split at h
    · cases h
    · split at h
      · cases h
        exact .refl b
      · cases h
        exact .refl b
  next id baseline fates =>
    split at h
    · cases h
    · split at h
      · dsimp only at h
        split at h
        · cases h
          exact (Grows.refl b).world _
        · cases h
          have hgrows : Grows b (b.onCanary id Canary.outdated) := grows_onCanary id fun c => (alike_outdated c).later
          exact hgrows.world _
      · cases h
        exact (Grows.refl b).world _
  next id =>
    cases h
    exact grows_onCanary id fun c => (alike_halt c).later
  next =>
    cases h
    exact .refl b
  next =>
    cases h
    exact .refl b
  next =>
    split at h
    · cases h
      exact .refl b
    · cases h
    · split at h
      · cases h
        exact .refl b
      · cases h
        exact .refl b
  next =>
    split at h
    · cases h
    · split at h
      · cases h
        exact .refl b
      · cases h
        exact .refl b
  next id row msgs =>
    cases h
    exact grows_onCanary id fun c => ⟨rfl, List.prefix_rfl, Nat.le_succ _, Nat.le_refl _⟩
  next id row msgs =>
    cases h
    split
    · exact grows_onCanary id fun c => ⟨rfl, List.prefix_rfl, Nat.le_refl _, Nat.le_succ _⟩
    · exact .refl b
  next id row msgs =>
    cases h
    exact grows_onCanary id fun c => later_push c row
  next => cases h

theorem WhileLocked.grows {s' : Pool.State Board Task τ} (h : WhileLocked cfg site s s') : Grows s.shared s'.shared := by
  refine Transition.ReachableUnder.invariant (I := fun r => Grows s.shared r.shared) ?_ ?_ h
  · rintro r rfl
    exact .refl _
  · intro r a r' hr hc hstep
    cases a with
    | thread t c =>
      obtain ⟨m, hm, rfl⟩ := Pool.step_thread hstep
      exact hr.trans (act_grows hc hm)
    | env w =>
      obtain ⟨m, hm, rfl⟩ := Pool.step_env hstep
      cases hm
      exact hr.world w

theorem WhileLocked.reachable {s' : Pool.State Board Task τ} (h : WhileLocked cfg site s s')
    (hs : ((canaries cfg site).system unstarted).Reachable s) : ((canaries cfg site).system unstarted).Reachable s' := by
  refine Transition.ReachableUnder.invariant (I := fun r => ((canaries cfg site).system unstarted).Reachable r) ?_ ?_ h
  · rintro r rfl
    exact hs
  · intro r a r' hr _ hstep
    exact .step hr trivial hstep

/-- The rows a read shows of a canary, and the counts it shows beside them. -/
structure Shows (v : Value) (c : Canary) (running : Bool) (events changed : Nat) : Prop where
  running : v.get "running" = some (.bool running)
  candidate : v.get "candidate_hash" = some (.string c.plan.candidateHash)
  events : v.get "events" = some (.ofNat events)
  changed : v.get "changed" = some (.ofNat changed)
  results : v.get "results" = some (.array ((c.recorded.map Row.json).reverse.take 100))

omit [External] in
theorem Grows.load (h : Grows b b') {id : Nat} {c : Canary} (hc : b.canaries[id]? = some c) : Later c (b'.load id c) := by
  obtain ⟨c', hc', hlater⟩ := h.canaries id c hc
  unfold Board.load
  rw [hc', Option.getD_some]
  exact hlater

end

def inForceFlow : String := "source \"vx.in\"\n"

def candidateFlow : String := "source \"vx.in\"\nemit \"vx.out\", \x7bn: n\x7d\n"

def quiet : World := ⟨fun p => if p = "/p/flows/a.vjs" then .ok inForceFlow else .error "not found", some, [], [], []⟩

def watched : List (Pool.Label Choice World Bool) := [
  .thread true (.start (fun _ => .ok) "flows/a.vjs" candidateFlow), .thread true (.enter 7), .thread true (.subscribe true),
  .thread true .look, .thread true .next, .thread true (.resolve fun _ => .ok),
  .thread true (.fetch [(3, bytesOf "\x7b\"n\":1\x7d"), (4, bytesOf "\x7b")]), .thread false (.stop "flows/a.vjs")]

def finished : List (Pool.Label Choice World Bool) := List.replicate 7 (.thread true .next) ++ [.thread true .look]

end Vejas.Runtime.Canaries
