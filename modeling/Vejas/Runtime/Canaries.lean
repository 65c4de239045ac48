import Vejas.Connectors.Wire
import Vejas.Http.Doors
import Vejas.Lib.Rounds

/-! Canaries: a candidate of a flow follows the live traffic in shadow beside the version in force,
and the differences are kept. Requests start and stop canaries while their threads run, and the
project and the versions change as they like. -/

namespace Vejas.Runtime.Canaries
open Json Rust Vjs Governance Http Connectors Fallible

structure Plan where
  unit : String
  path : String
  pkg : String
  store : Bool
  subject : String
  current : Program
  candidate : Program
  currentHash : String
  candidateHash : String

structure Sight where
  baseline : String
  versions : Kv
  seen : Bool

structure Row where
  checked : Option Sight
  seq : Nat
  event : Value
  before : Value
  after : Value

namespace Row

def changed (r : Row) : Bool := !r.before.eq r.after

def json (r : Row) : Value := .obj [
  ("seq", .ofNat r.seq), ("changed", .bool r.changed), ("before", r.before), ("after", r.after)]

end Row

/-- A canary as requests see it; `recorded` are the rows that went through its ring. -/
structure Canary where
  plan : Plan
  startedAt : Nat
  running : Bool
  total : Nat
  changed : Nat
  ring : List Value
  stopReason : Option String
  recorded : List Row

namespace Canary

def start (plan : Plan) (now : Nat) : Canary := ⟨plan, now, true, 0, 0, [], none, []⟩

def count (c : Canary) : Canary := { c with total := c.total + 1 }

def mark (c : Canary) : Canary := { c with changed := c.changed + 1 }

def push (c : Canary) (r : Row) : Canary :=
  { c with ring := (c.ring ++ [r.json]).rtake 500, recorded := c.recorded ++ [r] }

def halt (c : Canary) : Canary := { c with running := false }

def outdated (c : Canary) : Canary :=
  { c with stopReason := some "baseline changed (live version promoted or overlay evicted)" }

end Canary

/-- Every canary there was, and the one each unit has now. -/
structure Board where
  world : World
  canaries : List Canary
  latest : String → Option Nat

abbrev Msgs := List (Nat × Bytes)

/-- Where a thread is: serving requests, or running the canary with this number. -/
inductive Task
  | idle
  | starting (plan : Plan)
  | opening (id : Nat)
  | top (id : Nat)
  | live (id : Nat)
  | read (id : Nat) (baseline : String)
  | outdated (id : Nat)
  | passed (id : Nat) (s : Option Sight)
  | working (id : Nat) (s : Option Sight) (msgs : Msgs)
  | ran (id : Nat) (s : Option Sight) (seq : Nat) (event before : Value) (msgs : Msgs)
  | compared (id : Nat) (row : Row) (msgs : Msgs)
  | counted (id : Nat) (row : Row) (msgs : Msgs)
  | marked (id : Nat) (row : Row) (msgs : Msgs)

inductive Choice
  | start (fates : Fates) (file candidateSrc : String)
  | stop (file : String)
  | enter (now : Nat)
  | subscribe (ok : Bool)
  | look
  | resolve (fates : Fates)
  | shutdown
  | fetch (msgs : Msgs)
  | next

namespace Board

def onCanary (b : Board) (id : Nat) (f : Canary → Canary) : Board := { b with canaries := b.canaries.modify id f }

def isRunning (b : Board) (unit : String) : Bool :=
  ((b.latest unit).bind (b.canaries[·]?)).any (·.running)

def insert (b : Board) (plan : Plan) (now : Nat) : Board :=
  { b with
    canaries := b.canaries ++ [.start plan now]
    latest := fun u => if u = plan.unit then some b.canaries.length else b.latest u }

def haltUnit (b : Board) (unit : String) : Board :=
  match b.latest unit with
  | none => b
  | some id => b.onCanary id Canary.halt

end Board

section
variable [External] (cfg : Settings) (site : Site)

def planOf (fates : Fates) (file candidateSrc : String) : Gov Plan := do
  let path ← guarded cfg file
  let baseline ← readFile path
  let unit := flowProcName path
  connect fates
  let store := (fates .openVersions).isOk
  let (currentSrc, _) ← resolveSource store fates unit baseline
  let current ← .reads fun _ => parse currentSrc
  let candidate ← .reads fun _ => parse candidateSrc
  match current.source with
  | none => fail "flow has no bus source to shadow"
  | some subject => pure {
      unit, path, pkg := pkgOfPath path, store, subject, current, candidate
      currentHash := hashContent currentSrc, candidateHash := hashContent candidateSrc }

def act (b : Board) : Task → Choice → Option (Board × Task)
  | .idle, .start fates file candidateSrc =>
    match planOf cfg fates file candidateSrc b.world with
    | (.ok plan, w) => some ({ b with world := w }, .starting plan)
    | (.error _, w) => some ({ b with world := w }, .idle)
  | .idle, .stop file =>
    match (guarded cfg file b.world).1 with
    | .ok path => some (b.haltUnit (flowProcName path), .idle)
    | .error _ => some (b, .idle)
  | .starting plan, .enter now =>
    -- a running canary is not replaced
    if b.isRunning plan.unit then some (b, .idle) else some (b.insert plan now, .opening b.canaries.length)
  | .opening id, .subscribe ok => some (b, if ok then .top id else .idle)
  | .top _, .shutdown => some (b, .idle)
  | .top id, .look => (b.canaries[id]?).map fun c => (b, if c.running then .live id else .idle)
  | .live id, .next =>
    match b.canaries[id]? with
    | none => none
    | some c =>
      match b.world.files c.plan.path with
      | .ok baseline => some (b, .read id baseline)
      | .error _ => some (b, .passed id none)
  | .read id baseline, .resolve fates =>
    match b.canaries[id]? with
    | none => none
    | some c =>
      match resolveSource c.plan.store fates c.plan.unit baseline b.world with
      | (.ok (src, _), w) =>
        let s : Sight := ⟨baseline, b.world.versions, c.plan.store && (fates .getVersion).isOk⟩
        if hashContent src = c.plan.currentHash then some ({ b with world := w }, .passed id (some s))
        else some ({ b with world := w }.onCanary id Canary.outdated, .outdated id)
      | (.error _, w) => some ({ b with world := w }, .idle)
  | .outdated id, .next => some (b.onCanary id Canary.halt, .idle)
  | .passed id s, .fetch msgs => some (b, .working id s msgs)
  | .working id _ [], .next => some (b, .top id)
  | .working id s ((seq, data) :: msgs), .next =>
    match fromSlice data, b.canaries[id]? with
    | none, _ => some (b, .working id s msgs)
    | some _, none => none
    | some event, some c =>
      match (shadowEmits cfg site c.plan.pkg c.plan.current event b.world).1 with
      | .ok before => some (b, .ran id s seq event before msgs)
      -- a panic ends the thread
      | .error _ => some (b, .idle)
  | .ran id s seq event before msgs, .next =>
    match b.canaries[id]? with
    | none => none
    | some c =>
      match (shadowEmits cfg site c.plan.pkg c.plan.candidate event b.world).1 with
      | .ok after => some (b, .compared id ⟨s, seq, event, before, after⟩ msgs)
      | .error _ => some (b, .idle)
  | .compared id row msgs, .next => some (b.onCanary id Canary.count, .counted id row msgs)
  | .counted id row msgs, .next => some (if row.changed then b.onCanary id Canary.mark else b, .marked id row msgs)
  | .marked id row msgs, .next => some (b.onCanary id (·.push row), .working id row.checked msgs)
  | _, _ => none

def env (b : Board) (w : World) : Option Board := some { b with world := w }

def canaries : Pool Board Task Choice World := ⟨act cfg site, env⟩

end

def unstarted {τ : Type} (s : Pool.State Board Task τ) : Prop :=
  s.shared.canaries = [] ∧ (∀ u, s.shared.latest u = none) ∧ ∀ t, s.locals t = .idle

def Task.id : Task → Option Nat
  | .idle => none
  | .starting _ => none
  | .opening id => some id
  | .top id => some id
  | .live id => some id
  | .read id _ => some id
  | .outdated id => some id
  | .passed id _ => some id
  | .working id _ _ => some id
  | .ran id _ _ _ _ _ => some id
  | .compared id _ _ => some id
  | .counted id _ _ => some id
  | .marked id _ _ => some id

def Task.lead : Task → Nat × Nat
  | .counted _ _ _ => (1, 0)
  | .marked _ row _ => (1, if row.changed then 1 else 0)
  | _ => (0, 0)

def Apart (l k : Task) : Prop := ∀ i j, l.id = some i → k.id = some j → i ≠ j

def Alike (c c' : Canary) : Prop :=
  c'.plan = c.plan ∧ c'.total = c.total ∧ c'.changed = c.changed ∧ c'.ring = c.ring ∧ c'.recorded = c.recorded

def Elsewhere (b b' : Board) (id : Option Nat) : Prop :=
  ∀ (i : Nat) c, id ≠ some i → b.canaries[i]? = some c → ∃ c', b'.canaries[i]? = some c' ∧ Alike c c'

variable {b b' : Board}

theorem Apart.symm {l k : Task} (h : Apart l k) : Apart k l := fun i j hi hj heq => h j i hj hi heq.symm

theorem Alike.refl (c : Canary) : Alike c c := ⟨rfl, rfl, rfl, rfl, rfl⟩

theorem alike_halt (c : Canary) : Alike c c.halt := ⟨rfl, rfl, rfl, rfl, rfl⟩

theorem alike_outdated (c : Canary) : Alike c c.outdated := ⟨rfl, rfl, rfl, rfl, rfl⟩

theorem getElem?_onCanary {id i : Nat} {f : Canary → Canary} {c' : Canary} (h : (b.onCanary id f).canaries[i]? = some c') :
    ∃ c, b.canaries[i]? = some c ∧ c' = if id = i then f c else c := by
  unfold Board.onCanary at h
  rw [List.getElem?_modify] at h
  obtain ⟨c, hc, rfl⟩ := Option.map_eq_some_iff.mp h
  exact ⟨c, hc, rfl⟩

theorem onCanary_of {id i : Nat} {f : Canary → Canary} {c : Canary} (h : b.canaries[i]? = some c) :
    (b.onCanary id f).canaries[i]? = some (if id = i then f c else c) := by
  unfold Board.onCanary
  rw [List.getElem?_modify, h]
  rfl

section
variable [External] (cfg : Settings) (site : Site)

/-- The version in force, as the check saw it, is the one the canary started from. -/
def InForce (plan : Plan) (o : Option Sight) : Prop :=
  ∀ s, o = some s → hashContent (effectiveSource s.seen s.versions plan.unit s.baseline) = plan.currentHash

def RanBefore (plan : Plan) (event before : Value) : Prop :=
  ∃ w, (shadowEmits cfg site plan.pkg plan.current event w).1 = .ok before

/-- Both sides of the row are what the two versions emit on its event, in shadow, and the version
compared with was in force when the round began. -/
structure Justified (plan : Plan) (r : Row) : Prop where
  inForce : InForce plan r.checked
  before : RanBefore cfg site plan r.event r.before
  after : ∃ w, (shadowEmits cfg site plan.pkg plan.candidate r.event w).1 = .ok r.after

def Planned (plan : Plan) : Prop :=
  ∃ currentSrc candidateSrc, parse currentSrc = .ok plan.current ∧ plan.currentHash = hashContent currentSrc ∧
    parse candidateSrc = .ok plan.candidate ∧ plan.candidateHash = hashContent candidateSrc

structure Fits (c : Canary) : Prop where
  planned : Planned c.plan
  rows : ∀ r ∈ c.recorded, Justified cfg site c.plan r
  ring : c.ring = (c.recorded.map Row.json).rtake 500
  total : c.recorded.length ≤ c.total ∧ c.total ≤ c.recorded.length + 1
  changed : c.recorded.countP Row.changed ≤ c.changed ∧ c.changed ≤ c.recorded.countP Row.changed + 1 ∧ c.changed ≤ c.total

structure Sound (b : Board) : Prop where
  running : ∀ id c, b.canaries[id]? = some c → c.running = true → b.latest c.plan.unit = some id
  latest : ∀ u id, b.latest u = some id → ∃ c, b.canaries[id]? = some c ∧ c.plan.unit = u
  known : ∀ (id : Nat) c, b.canaries[id]? = some c → b.latest c.plan.unit ≠ none
  fits : ∀ (id : Nat) c, b.canaries[id]? = some c → Fits cfg site c

def Backed (plan : Plan) : Task → Prop
  | .passed _ s => InForce plan s
  | .working _ s _ => InForce plan s
  | .ran _ s _ event before _ => InForce plan s ∧ RanBefore cfg site plan event before
  | .compared _ row _ => Justified cfg site plan row
  | .counted _ row _ => Justified cfg site plan row
  | .marked _ row _ => Justified cfg site plan row
  | _ => True

structure Attends (task : Task) (c : Canary) : Prop where
  total : c.total = c.recorded.length + task.lead.1
  changed : c.changed = c.recorded.countP Row.changed + task.lead.2
  backed : Backed cfg site c.plan task

def AtHand (b : Board) (task : Task) : Prop :=
  (∀ plan, task = .starting plan → Planned plan) ∧
    ∀ id, task.id = some id → ∃ c, b.canaries[id]? = some c ∧ Attends cfg site task c

variable {cfg site} {task task' : Task}

theorem Fits.alike {c c' : Canary} (h : Fits cfg site c) (ha : Alike c c') : Fits cfg site c' := by
  obtain ⟨hplan, htotal, hchanged, hring, hrec⟩ := ha
  refine ⟨hplan ▸ h.planned, ?_, ?_, ?_, ?_⟩
  · rw [hplan, hrec]
    exact h.rows
  · rw [hring, hrec]
    exact h.ring
  · rw [htotal, hrec]
    exact h.total
  · rw [hchanged, hrec, htotal]
    exact h.changed

theorem Attends.alike {c c' : Canary} (h : Attends cfg site task c) (ha : Alike c c') : Attends cfg site task c' := by
  obtain ⟨hplan, htotal, hchanged, -, hrec⟩ := ha
  refine ⟨?_, ?_, hplan ▸ h.backed⟩
  · rw [htotal, hrec]
    exact h.total
  · rw [hchanged, hrec]
    exact h.changed

theorem AtHand.elsewhere {k : Task} {id : Option Nat} (h : AtHand cfg site b k) (he : Elsewhere b b' id)
    (hid : ∀ j, k.id = some j → id ≠ some j) : AtHand cfg site b' k := by
  refine ⟨h.1, fun j hj => ?_⟩
  obtain ⟨c, hc, hatt⟩ := h.2 j hj
  obtain ⟨c', hc', ha⟩ := he j c (hid j hj) hc
  exact ⟨c', hc', hatt.alike ha⟩

theorem Sound.onCanary (h : Sound cfg site b) {id : Nat} {f : Canary → Canary} (hplan : ∀ c, (f c).plan = c.plan)
    (hrun : ∀ c, (f c).running = true → c.running = true)
    (hfits : ∀ c, b.canaries[id]? = some c → Fits cfg site (f c)) : Sound cfg site (b.onCanary id f) where
  running := by
    intro i c' hc' hr
    obtain ⟨c, hc, rfl⟩ := getElem?_onCanary hc'
    split at hr
    · rw [if_pos ‹_›, hplan]
      exact h.running i c hc (hrun c hr)
    · rw [if_neg ‹_›]
      exact h.running i c hc hr
  latest := by
    intro u i hi
    obtain ⟨c, hc, hu⟩ := h.latest u i hi
    refine ⟨_, onCanary_of hc, ?_⟩
    split
    · exact (congrArg Plan.unit (hplan c)).trans hu
    · exact hu
  known := by
    intro i c' hc'
    obtain ⟨c, hc, rfl⟩ := getElem?_onCanary hc'
    split
    · rw [hplan]
      exact h.known i c hc
    · exact h.known i c hc
  fits := by
    intro i c' hc'
    obtain ⟨c, hc, rfl⟩ := getElem?_onCanary hc'
    split
    next heq => exact hfits c (heq ▸ hc)
    next => exact h.fits i c hc

theorem Sound.world (h : Sound cfg site b) (w : World) : Sound cfg site { b with world := w } := ⟨h.running, h.latest, h.known, h.fits⟩

theorem Sound.alike (h : Sound cfg site b) (id : Nat) {f : Canary → Canary} (hf : ∀ c, Alike c (f c))
    (hrun : ∀ c, (f c).running = true → c.running = true) : Sound cfg site (b.onCanary id f) :=
  h.onCanary (fun c => (hf c).1) hrun fun c hc => (h.fits id c hc).alike (hf c)

theorem fits_start {plan : Plan} (h : Planned plan) (now : Nat) : Fits cfg site (.start plan now) where
  planned := h
  rows := fun _ hr => by cases hr
  ring := (List.rtake_nil 500).symm
  total := ⟨Nat.le_refl _, Nat.zero_le _⟩
  changed := ⟨Nat.le_refl _, Nat.zero_le _, Nat.le_refl _⟩

theorem Sound.insert (h : Sound cfg site b) {plan : Plan} (hplan : Planned plan) (now : Nat) (hnone : b.isRunning plan.unit = false) :
    Sound cfg site (b.insert plan now) where
  running := by
    intro i c hc hr
    unfold Board.insert at hc ⊢
    dsimp only at hc ⊢
    rcases Nat.lt_trichotomy i b.canaries.length with hlt | rfl | hgt
    · rw [List.getElem?_append_left hlt] at hc
      have hlatest := h.running i c hc hr
      have hne : c.plan.unit ≠ plan.unit := by
        intro heq
        unfold Board.isRunning at hnone
        rw [← heq, hlatest, Option.bind_some, hc] at hnone
        exact Bool.false_ne_true (hnone.symm.trans hr)
      rw [if_neg hne]
      exact hlatest
    · rw [List.getElem?_concat_length] at hc
      cases hc
      exact if_pos rfl
    · rw [List.getElem?_eq_none (by rw [List.length_append]; exact hgt)] at hc
      cases hc
  latest := by
    intro u i hi
    unfold Board.insert at hi ⊢
    dsimp only at hi ⊢
    split at hi
    next heq =>
      cases hi
      exact ⟨_, List.getElem?_concat_length, heq.symm⟩
    next =>
      obtain ⟨c, hc, hu⟩ := h.latest u i hi
      exact ⟨c, by rw [List.getElem?_append_left (List.getElem?_eq_some_iff.mp hc).1, hc], hu⟩
  known := by
    intro i c hc
    unfold Board.insert at hc ⊢
    dsimp only at hc ⊢
    split
    · exact Option.some_ne_none _
    next hne =>
      rcases Nat.lt_trichotomy i b.canaries.length with hlt | rfl | hgt
      · rw [List.getElem?_append_left hlt] at hc
        exact h.known i c hc
      · rw [List.getElem?_concat_length] at hc
        cases hc
        exact absurd rfl hne
      · rw [List.getElem?_eq_none (by rw [List.length_append]; exact hgt)] at hc
        cases hc
  fits := by
    intro i c hc
    unfold Board.insert at hc
    dsimp only at hc
    rcases Nat.lt_trichotomy i b.canaries.length with hlt | rfl | hgt
    · rw [List.getElem?_append_left hlt] at hc
      exact h.fits i c hc
    · rw [List.getElem?_concat_length] at hc
      cases hc
      exact fits_start hplan now
    · rw [List.getElem?_eq_none (by rw [List.length_append]; exact hgt)] at hc
      cases hc

structure Stepped (cfg : Settings) (site : Site) (b : Board) (task : Task) (b' : Board) (task' : Task) : Prop where
  sound : Sound cfg site b'
  own : AtHand cfg site b' task'
  elsewhere : Elsewhere b b' task.id
  id : ∀ i, task'.id = some i → task.id = some i ∨ b.canaries[i]? = none

theorem Stepped.world (h : Stepped cfg site b task b' task') (w : World) : Stepped cfg site b task { b' with world := w } task' :=
  ⟨h.sound.world w, h.own, h.elsewhere, h.id⟩

variable {τ : Type} [DecidableEq τ] {s : Pool.State Board Task τ}

end

end Vejas.Runtime.Canaries
