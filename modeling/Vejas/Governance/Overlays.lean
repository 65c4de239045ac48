import Vejas.Governance.Evidence
import Vejas.Json.Reading
import Vejas.Lib.Pool

/-! One key of the version bucket under any number of calls. `resolve_source` is cut between
its get and its delete, `promote_version` also before its put; what else a call does touches
nothing that the calls share. -/

namespace Vejas.Governance
open Json Rust Vjs Fallible

structure Version where
  revision : Nat
  text : String
  deriving DecidableEq

/-- A delete by `resolve_source` that found a version there, and the version it was meant for. -/
structure Eviction where
  removed : Version
  judged : Version
  baseline : String
  deriving DecidableEq

/-- The key. `revision` is that of the last put, `evictions` what was deleted, newest first. -/
structure Slot where
  stored : Option Version
  revision : Nat
  evictions : List Eviction
  deriving DecidableEq

structure Edit where
  name : String
  key : String
  value : Value
  actor : String
  now : Nat

inductive Goal
  | read
  | promote (e : Edit)

inductive Stage
  | idle
  | getting (baseline : String) (goal : Goal)
  | evicting (baseline : String) (judged : Version) (goal : Goal)
  | putting (text : String) (edit : Option Edit)
  | returned (source : String)
  | published (edit : Option Edit)
  | failed

inductive Turn
  | call (baseline : String) (goal : Goal)
  | publish (source parent actor : String) (now : Nat)
  | get (ok : Bool)
  | delete (done : Bool)
  | put (fate : Fate)

namespace Slot

def put (s : Slot) (text : String) : Slot :=
  { s with stored := some ⟨s.revision + 1, text⟩, revision := s.revision + 1 }

def evict (s : Slot) (judged : Version) (baseline : String) : Slot :=
  match s.stored with
  | none => s
  | some v => { s with stored := none, evictions := ⟨v, judged, baseline⟩ :: s.evictions }

end Slot

theorem ignore_ok {α : Type} {m : Gov α} {w : World} (h : (m w).1 ≠ .error .panic) :
    (ignore m w).1 = .ok () := by
  unfold ignore
  rcases hm : m w with ⟨f | a, w'⟩
  · rw [hm] at h
    cases f with
    | panic => exact absurd rfl h
    | err e => simp [bind_run, attempt, hm]
    | outOfFuel => simp [bind_run, attempt, hm]
  · simp [bind_run, attempt, hm]

theorem ignore_run {α : Type} {m : Gov α} {w : World} (h : (m w).1 ≠ .error .panic) :
    ∃ w', ignore m w = (.ok (), w') :=
  ⟨_, Prod.ext (ignore_ok h) rfl⟩

theorem FlowFile.guarded_run {cfg : Settings} {w : World} {file path text : String}
    (h : FlowFile cfg w file path text) : guarded cfg file w = (.ok path, w) := by
  unfold guarded
  rw [h.guard]

theorem readFile_run {w : World} {path text : String} (h : w.files path = .ok text) :
    readFile path w = (.ok text, w) := by
  unfold readFile
  rw [reads_run, h]
  rfl

theorem perform_ne_panic (fate : Fate) (act : World → World) (w : World) :
    (perform fate act w).1 ≠ .error .panic := by
  cases fate <;> simp [perform]

def Slot.Mirrors (flow : String) (s : Slot) (versions : Kv) : Prop :=
  s.stored.map (·.text) = versions.get? (keyOf flow)

theorem get?_put (kv : Kv) (key value : String) : (kv.put key value).get? key = some value := by
  have hnone : (kv.delete key).find? (·.1 == key) = none := by
    simp [Kv.delete, List.find?_eq_none]
  simp [Kv.get?, Kv.put, hnone]

theorem Slot.Mirrors.put {flow : String} {s : Slot} (text : String) (versions : Kv) :
    (s.put text).Mirrors flow (versions.put (keyOf flow) text) := by
  unfold Slot.Mirrors
  rw [get?_put]
  rfl

theorem Slot.Mirrors.evict {flow : String} {s : Slot} (judged : Version) (baseline : String) (versions : Kv) :
    (s.evict judged baseline).Mirrors flow (versions.delete (keyOf flow)) := by
  unfold Slot.Mirrors Slot.evict
  rw [get?_delete]
  cases hs : s.stored with
  | none => simp [hs]
  | some v => rfl

theorem Slot.Mirrors.overlay {flow : String} {s : Slot} {versions : Kv} (h : s.Mirrors flow versions) :
    overlayOf versions flow = s.stored.bind fun v => fromStr v.text := by
  unfold overlayOf
  rw [← h]
  cases s.stored <;> rfl

def versionRecord (flow source parentHash actor : String) (now : Nat) : Value :=
  .obj [("flow", .string flow), ("source", .string source), ("parent", .string parentHash),
    ("hash", .string (hashContent source)), ("actor", .string actor), ("ts", .ofNat now)]

theorem versionRecord_exact (flow source parentHash actor : String) (now : Nat) :
    Exact 1 (versionRecord flow source parentHash actor now) := by
  refine .obj ?_
  simp only [List.forall_mem_cons]
  exact ⟨.string _ _, .string _ _, .string _ _, .string _ _, .string _ _, .posInt _ _, nofun⟩

theorem versionRecord_text (flow source parentHash actor : String) (now : Nat) :
    (versionRecord flow source parentHash actor now).text "source" = some source ∧
      (versionRecord flow source parentHash actor now).text "parent" = some parentHash := by
  simp [versionRecord, Value.obj, Map.ofEntries, Map.extend, Value.text, Value.index, Value.get,
    Value.asObject, Map.get?_insert, Value.asStr]

theorem versionRecord_forked (flow source baseline actor : String) (now : Nat) :
    forkedFrom (versionRecord flow source (hashContent baseline) actor now) baseline = true := by
  unfold forkedFrom
  rw [(versionRecord_text flow source (hashContent baseline) actor now).2]
  simp

section
variable [External] (flow : String)

theorem versionRecord_reads (source parentHash actor : String) (now : Nat) :
    fromStr (versionRecord flow source parentHash actor now).render =
      some (versionRecord flow source parentHash actor now) :=
  fromStr_render (versionRecord_exact flow source parentHash actor now) (by decide)

def Goal.next (baseline current : String) : Goal → Stage
  | .read => .returned current
  | .promote e =>
    match setLiteral current e.name e.key e.value with
    | .ok src =>
      -- forked from the file, whatever the source that was edited
      .putting (versionRecord flow src (hashContent baseline) e.actor e.now).render (some e)
    | .error _ => .failed

def Slot.act (s : Slot) : Stage → Turn → Option (Slot × Stage)
  | .idle, .call baseline goal => some (s, .getting baseline goal)
  | .idle, .publish source parent actor now =>
    some (s, .putting (versionRecord flow source parent actor now).render none)
  | .getting baseline goal, .get ok =>
    match if ok then s.stored else none with
    | none => some (s, goal.next flow baseline baseline)
    | some v =>
      match fromStr v.text with
      | none => some (s, goal.next flow baseline baseline)
      | some ov =>
        if forkedFrom ov baseline then
          some (s, goal.next flow baseline ((ov.text "source").getD baseline))
        else some (s, .evicting baseline v goal)
  | .evicting baseline judged goal, .delete done =>
    some (if done then s.evict judged baseline else s, goal.next flow baseline baseline)
  | .putting text edit, .put fate =>
    match fate with
    | .ok => some (s.put text, .published edit)
    | .failed _ => some (s, .failed)
    | .lost _ => some (s.put text, .failed)
  | _, _ => none

def overlays : Pool Slot Stage Turn Empty where
  act := Slot.act flow
  env _ := nofun

def atRest {τ : Type} (s : Pool.State Slot Stage τ) : Prop :=
  s.shared.evictions = [] ∧ ∀ t, s.locals t = .idle

variable {flow}

def Slot.source (s : Slot) (seen : Bool) (baseline : String) : String :=
  match (if seen then s.stored else none).bind fun v => fromStr v.text with
  | none => baseline
  | some ov => if forkedFrom ov baseline then (ov.text "source").getD baseline else baseline

def Version.Stale (v : Version) (baseline : String) : Prop :=
  ∃ ov, fromStr v.text = some ov ∧ forkedFrom ov baseline = false

/-- Everything a turn of a call can do. -/
inductive Slot.Acts (flow : String) (s : Slot) : Stage → Turn → Slot → Stage → Prop
  | call (b : String) (g : Goal) : Acts flow s .idle (.call b g) s (.getting b g)
  | publish (source parent actor : String) (now : Nat) :
      Acts flow s .idle (.publish source parent actor now) s
        (.putting (versionRecord flow source parent actor now).render none)
  | got (b : String) (g : Goal) (ok : Bool) :
      Acts flow s (.getting b g) (.get ok) s (g.next flow b (s.source ok b))
  | judged {v : Version} (b : String) (g : Goal) (hv : s.stored = some v) (hs : v.Stale b) :
      Acts flow s (.getting b g) (.get true) s (.evicting b v g)
  | deleted (b : String) (v : Version) (g : Goal) :
      Acts flow s (.evicting b v g) (.delete true) (s.evict v b) (g.next flow b b)
  | kept (b : String) (v : Version) (g : Goal) :
      Acts flow s (.evicting b v g) (.delete false) s (g.next flow b b)
  | put (text : String) (e : Option Edit) :
      Acts flow s (.putting text e) (.put .ok) (s.put text) (.published e)
  | failed (text m : String) (e : Option Edit) :
      Acts flow s (.putting text e) (.put (.failed m)) s .failed
  | lost (text m : String) (e : Option Edit) :
      Acts flow s (.putting text e) (.put (.lost m)) (s.put text) .failed

theorem Slot.acts_of_get {s s' : Slot} {stage : Stage} {b : String} {g : Goal} {ok : Bool}
    (h : s.act flow (.getting b g) (.get ok) = some (s', stage)) :
    s.Acts flow (.getting b g) (.get ok) s' stage := by
  have hgot : s.Acts flow (.getting b g) (.get ok) s (g.next flow b (s.source ok b)) := .got b g ok
  unfold Slot.source at hgot
  simp only [Slot.act] at h
  cases hst : if ok then s.stored else none with
  | none =>
    rw [hst] at h hgot
    cases h
    exact hgot
  | some v =>
    rw [hst] at h hgot
    dsimp only at h
    rw [Option.bind_some] at hgot
    cases hv : fromStr v.text with
    | none =>
      rw [hv] at h hgot
      cases h
      exact hgot
    | some ov =>
      rw [hv] at h hgot
      dsimp only at h hgot
      cases hf : forkedFrom ov b with
      | true =>
        rw [hf] at h hgot
        cases h
        exact hgot
      | false =>
        rw [hf] at h
        cases h
        cases ok with
        | false => cases hst
        | true => exact .judged b g hst ⟨ov, hv, hf⟩

theorem Slot.acts_of_act {s s' : Slot} {stage stage' : Stage} {t : Turn}
    (h : s.act flow stage t = some (s', stage')) : s.Acts flow stage t s' stage' := by
  cases stage with
  | idle =>
    cases t with
    | call b g =>
      cases h
      exact .call b g
    | publish source parent actor now =>
      cases h
      exact .publish source parent actor now
    | _ => cases h
  | getting b g =>
    cases t with
    | get ok => exact Slot.acts_of_get h
    | _ => cases h
  | evicting b v g =>
    cases t with
    | delete done =>
      cases done with
      | true =>
        cases h
        exact .deleted b v g
      | false =>
        cases h
        exact .kept b v g
    | _ => cases h
  | putting text e =>
    cases t with
    | put fate =>
      cases fate with
      | ok =>
        cases h
        exact .put text e
      | failed m =>
        cases h
        exact .failed text m e
      | lost m =>
        cases h
        exact .lost text m e
    | _ => cases h
  | returned _ => cases h
  | published _ => cases h
  | failed => cases h

variable (flow)

def alone (s : Slot) (stage : Stage) (turns : List Turn) : Option (Slot × Stage) :=
  Transition.run (fun p m => Slot.act flow p.1 p.2 m) (s, stage) turns

variable {flow}

theorem alone_append {s s' : Slot} {stage stage' : Stage} {turns : List Turn} {t : Turn}
    {r : Slot × Stage} (h : alone flow s stage turns = some (s', stage'))
    (ht : Slot.act flow s' stage' t = some r) : alone flow s stage (turns ++ [t]) = some r := by
  unfold alone at h ⊢
  rw [Transition.run_append, h]
  simpa [Transition.run] using ht

theorem resolve_alone (baseline : String) (goal : Goal) (fates : Fates) {w : World} {s : Slot}
    (h : s.Mirrors flow w.versions) :
    ∃ src o w' turns s', resolveSource true fates flow baseline w = (.ok (src, o), w') ∧
      alone flow s (.getting baseline goal) turns = some (s', goal.next flow baseline src) ∧
      s'.Mirrors flow w'.versions := by
  have hov := h.overlay
  have hget : getVersion fates flow w =
      (.ok (if (fates .getVersion).isOk then overlayOf w.versions flow else none), w) := rfl
  unfold resolveSource
  simp only [Bool.not_true, Bool.false_eq_true, if_false]
  rw [bind_ok hget]
  cases hok : (fates .getVersion).isOk with
  | false => exact ⟨baseline, .baseline, w, [.get false], s, rfl, rfl, h⟩
  | true =>
    rw [if_pos rfl, hov]
    cases hs : s.stored with
    | none =>
      refine ⟨baseline, .baseline, w, [.get true], s, rfl, ?_, h⟩
      simp [alone, Transition.run, Slot.act, hs]
    | some v =>
      cases hv : fromStr v.text with
      | none =>
        refine ⟨baseline, .baseline, w, [.get true], s, by simp [hv], ?_, h⟩
        simp [alone, Transition.run, Slot.act, hs, hv]
      | some ov =>
        rw [Option.bind_some, hv]
        dsimp only
        cases hfork : forkedFrom ov baseline with
        | true =>
          refine ⟨_, .overlay, w, [.get true], s, rfl, ?_, h⟩
          simp [alone, Transition.run, Slot.act, hs, hv, hfork]
        | false =>
          -- a stale overlay: the delete is the call's second turn, and its end is ignored
          cases hfate : fates .deleteVersion with
          | failed e =>
            refine ⟨_, _, w, [.get true, .delete false], s, rfl, ?_, h⟩
            simp [alone, Transition.run, Slot.act, hs, hv, hfork]
          | ok =>
            refine ⟨_, _, _, [.get true, .delete true], s.evict v baseline, rfl, ?_,
              Slot.Mirrors.evict v baseline w.versions⟩
            simp [alone, Transition.run, Slot.act, hs, hv, hfork]
          | lost e =>
            refine ⟨_, _, _, [.get true, .delete true], s.evict v baseline, rfl, ?_,
              Slot.Mirrors.evict v baseline w.versions⟩
            simp [alone, Transition.run, Slot.act, hs, hv, hfork]

theorem recordPromote_ok (cfg : Settings) (fates : Fates) (file name key : String)
    (before after : Value) (actor : String) (w : World) :
    ∃ w', recordPromote cfg fates file name key before after actor w = (.ok (), w') ∧
      w'.versions = w.versions := by
  have hsame : Leaves (·.versions) (recordPromote cfg fates file name key before after actor) := by
    refine leaves_ignore ((closed_leaves _).bind (leaves_guarded _ cfg file) fun path => ?_)
    split
    · exact (closed_leaves _).pure ()
    · exact leaves_perform fun _ => rfl
  refine ⟨_, Prod.ext (ignore_ok ?_) rfl, hsame w⟩
  rcases hg : guarded cfg file w with ⟨f | path, w'⟩
  · rw [bind_error hg]
    unfold guarded at hg
    split at hg <;> cases hg
    simp
  · rw [bind_ok hg]
    split
    · simp
    · exact perform_ne_panic _ _ _

def promoted (unit baseline : String) : Value :=
  .obj [("ok", .bool true), ("versioned", .bool true), ("flow", .string unit),
    ("parent", .string (hashContent baseline))]

theorem promoteVersion_outcome {cfg : Settings} {fates : Fates} {file path baseline : String}
    {w : World} (e : Edit) (hnow : e.now = cfg.now) (hfile : FlowFile cfg w file path baseline)
    (hc : (fates .connect).isOk = true) (ho : (fates .openVersions).isOk = true) :
    ∃ w₁, (∃ o, resolveSource true fates (flowProcName path) baseline w =
        (.ok (effectiveSource (sees fates) w.versions (flowProcName path) baseline, o), w₁)) ∧
      match promoteVersion cfg fates file e.name e.key e.value e.actor w,
        setLiteral (effectiveSource (sees fates) w.versions (flowProcName path) baseline)
          e.name e.key e.value, fates .putVersion with
      | r, .error f, _ => r.1 = .error f ∧ r.2.versions = w₁.versions
      | r, .ok src, .ok => r.1 = .ok (promoted (flowProcName path) baseline) ∧
          r.2.versions = w₁.versions.put (keyOf (flowProcName path))
            (versionRecord (flowProcName path) src (hashContent baseline) e.actor e.now).render
      | r, .ok _, .failed m => r.1 = .error (.err m) ∧ r.2.versions = w₁.versions
      | r, .ok src, .lost m => r.1 = .error (.err m) ∧
          r.2.versions = w₁.versions.put (keyOf (flowProcName path))
            (versionRecord (flowProcName path) src (hashContent baseline) e.actor e.now).render := by
  have hguard := hfile.guarded_run
  have hread := readFile_run hfile.read
  have hconn : connect fates w = (.ok (), w) := by
    unfold connect
    cases hf : fates .connect with
    | ok => rfl
    | failed m => simp [hf, Fate.isOk] at hc
    | lost m => simp [hf, Fate.isOk] at hc
  obtain ⟨o, w₁, hres, -⟩ := resolveSource_run true fates (flowProcName path) baseline w
  have hsees : (true && (fates .getVersion).isOk) = sees fates := by
    unfold sees
    rw [ho]
  rw [hsees] at hres
  refine ⟨w₁, ⟨o, hres⟩, ?_⟩
  unfold promoteVersion
  rw [bind_ok hguard, bind_ok hread, bind_ok hconn]
  simp only [ho, Bool.not_true, Bool.false_eq_true, if_false]
  rw [bind_ok hres]
  dsimp only
  generalize effectiveSource (sees fates) w.versions (flowProcName path) baseline = current
  cases hset : setLiteral current e.name e.key e.value with
  | error f =>
    have hrw : rewrite current e.name e.key e.value w₁ = (.error f, w₁.note (.rewrite current)) := by
      unfold rewrite
      rw [hset]
    rw [bind_error hrw]
    exact ⟨rfl, rfl⟩
  | ok src =>
    have hrw : rewrite current e.name e.key e.value w₁ = (.ok src, w₁.note (.rewrite current)) := by
      unfold rewrite
      rw [hset]
    rw [bind_ok hrw]
    cases hput : fates .putVersion with
    | ok =>
      have hp : putVersion cfg fates (flowProcName path) src (hashContent baseline) e.actor
          (w₁.note (.rewrite current)) = (.ok (), (w₁.note (.rewrite current)).putVersion
            (keyOf (flowProcName path))
            (versionRecord (flowProcName path) src (hashContent baseline) e.actor e.now).render) := by
        unfold putVersion
        rw [hput, hnow]
        rfl
      obtain ⟨w', hrec, hsame⟩ := recordPromote_ok cfg fates file e.name e.key
        ((getLiteral current e.name e.key).getD .null) e.value e.actor _
      rw [bind_ok hp, bind_ok hrec]
      exact ⟨rfl, hsame⟩
    | failed m =>
      have hp : putVersion cfg fates (flowProcName path) src (hashContent baseline) e.actor
          (w₁.note (.rewrite current)) = (.error (.err m), w₁.note (.rewrite current)) := by
        unfold putVersion
        rw [hput]
        rfl
      rw [bind_error hp]
      exact ⟨rfl, rfl⟩
    | lost m =>
      have hp : putVersion cfg fates (flowProcName path) src (hashContent baseline) e.actor
          (w₁.note (.rewrite current)) = (.error (.err m), (w₁.note (.rewrite current)).putVersion
            (keyOf (flowProcName path))
            (versionRecord (flowProcName path) src (hashContent baseline) e.actor e.now).render) := by
        unfold putVersion
        rw [hput, hnow]
        rfl
      rw [bind_error hp]
      exact ⟨rfl, rfl⟩

theorem leaves_promoteVersion (cfg : Settings) (fates : Fates) (file name key : String)
    (value : Value) (actor : String) :
    Leaves (fun w => (w.files, w.canonicalize))
      (promoteVersion cfg fates file name key value actor) := by
  have hc := closed_leaves (ε := Fault) fun w : World => (w.files, w.canonicalize)
  refine hc.bind (leaves_guarded _ cfg file) fun path => ?_
  refine hc.bind (hc.reads _) fun baseline => ?_
  refine hc.bind (leaves_connect _ fates) fun _ => ?_
  split
  · exact hc.throw _
  · refine hc.bind ?_ fun r => ?_
    · intro w
      obtain ⟨o, w', hres, hkept⟩ := resolveSource_run true fates (flowProcName path) baseline w
      rw [hres]
      exact Prod.ext hkept.files hkept.canonicalize
    · refine hc.bind (fun w => rfl) fun src => ?_
      refine hc.bind (leaves_perform fun _ => rfl) fun _ => ?_
      refine hc.bind ?_ fun _ => hc.pure _
      refine leaves_ignore (hc.bind (leaves_guarded _ cfg file) fun path => ?_)
      split
      · exact hc.pure ()
      · exact leaves_perform fun _ => rfl

theorem promoteVersion_reached {cfg : Settings} {fates : Fates} {file path baseline : String}
    {name key actor : String} {value answer : Value} {w w' : World}
    (hfile : FlowFile cfg w file path baseline)
    (h : promoteVersion cfg fates file name key value actor w = (.ok answer, w')) :
    (fates .connect).isOk = true ∧ (fates .openVersions).isOk = true := by
  unfold promoteVersion at h
  rw [bind_ok hfile.guarded_run, bind_ok (readFile_run hfile.read)] at h
  cases hc : fates .connect with
  | failed m =>
    have hcon : connect fates w = (.error (.err ("NATS unreachable: " ++ m)), w) := by
      unfold connect
      rw [hc]
    rw [bind_error hcon] at h
    cases h
  | lost m =>
    have hcon : connect fates w = (.error (.err ("NATS unreachable: " ++ m)), w) := by
      unfold connect
      rw [hc]
    rw [bind_error hcon] at h
    cases h
  | ok =>
    have hcon : connect fates w = (.ok (), w) := by
      unfold connect
      rw [hc]
    rw [bind_ok hcon] at h
    cases ho : (fates .openVersions).isOk with
    | true => exact ⟨rfl, rfl⟩
    | false =>
      simp only [ho, Bool.not_false, if_true] at h
      cases h

theorem promoteVersion_stored {cfg : Settings} {fates : Fates} {file path baseline : String}
    {answer : Value} {w w' : World} (e : Edit) (hnow : e.now = cfg.now)
    (hfile : FlowFile cfg w file path baseline)
    (h : promoteVersion cfg fates file e.name e.key e.value e.actor w = (.ok answer, w')) :
    ∃ src, setLiteral (effectiveSource (sees fates) w.versions (flowProcName path) baseline)
        e.name e.key e.value = .ok src ∧ FlowFile cfg w' file path baseline ∧
      overlayOf w'.versions (flowProcName path) =
        some (versionRecord (flowProcName path) src (hashContent baseline) e.actor e.now) := by
  obtain ⟨hc, ho⟩ := promoteVersion_reached hfile h
  obtain ⟨w₁, -, hout⟩ := promoteVersion_outcome e hnow hfile hc ho
  have hsame := leaves_promoteVersion cfg fates file e.name e.key e.value e.actor w
  rw [h] at hsame hout
  obtain ⟨hfiles, hcanon⟩ := Prod.mk.inj hsame
  have hfile' : FlowFile cfg w' file path baseline := by
    refine ⟨?_, ?_⟩
    · unfold guardPath
      rw [hcanon]
      exact hfile.guard
    · rw [hfiles]
      exact hfile.read
  split at hout
  · cases hout.1
  next src hset hput =>
    refine ⟨src, hset, hfile', ?_⟩
    unfold overlayOf
    rw [hout.2, get?_put, Option.bind_some, versionRecord_reads]
  · cases hout.1
  · cases hout.1

theorem promote_alone {cfg : Settings} {fates : Fates} {file path baseline : String} {w : World}
    {s : Slot} (e : Edit) (hnow : e.now = cfg.now) (hfile : FlowFile cfg w file path baseline)
    (hc : (fates .connect).isOk = true) (ho : (fates .openVersions).isOk = true)
    (h : s.Mirrors (flowProcName path) w.versions) :
    ∃ turns s' stage,
      alone (flowProcName path) s (.getting baseline (.promote e)) turns = some (s', stage) ∧
      s'.Mirrors (flowProcName path)
        (promoteVersion cfg fates file e.name e.key e.value e.actor w).2.versions ∧
      stage = match (promoteVersion cfg fates file e.name e.key e.value e.actor w).1 with
        | .ok _ => .published (some e)
        | .error _ => .failed := by
  obtain ⟨w₁, ⟨o, hres⟩, hout⟩ := promoteVersion_outcome e hnow hfile hc ho
  obtain ⟨src, o', w', turns, s', hres', hrun, hmir⟩ :=
    resolve_alone baseline (.promote e) fates h
  obtain ⟨hval, rfl⟩ := Prod.mk.inj (hres.symm.trans hres')
  obtain ⟨hsrc, -⟩ := Prod.mk.inj (Except.ok.inj hval)
  rw [hsrc] at hout
  unfold Goal.next at hrun
  dsimp only at hrun
  cases hset : setLiteral src e.name e.key e.value with
  | error f =>
    rw [hset] at hout hrun
    dsimp only at hout hrun
    refine ⟨turns, s', .failed, hrun, ?_, ?_⟩
    · rw [hout.2]
      exact hmir
    · rw [hout.1]
  | ok new =>
    rw [hset] at hout hrun
    dsimp only at hrun
    cases hput : fates .putVersion with
    | ok =>
      rw [hput] at hout
      refine ⟨turns ++ [.put .ok], _, _, alone_append hrun rfl, ?_, ?_⟩
      · rw [hout.2]
        exact .put _ _
      · rw [hout.1]
    | failed m =>
      rw [hput] at hout
      refine ⟨turns ++ [.put (.failed m)], _, _, alone_append hrun rfl, ?_, ?_⟩
      · rw [hout.2]
        exact hmir
      · rw [hout.1]
    | lost m =>
      rw [hput] at hout
      refine ⟨turns ++ [.put (.lost m)], _, _, alone_append hrun rfl, ?_, ?_⟩
      · rw [hout.2]
        exact .put _ _
      · rw [hout.1]

end

end Vejas.Governance
