import Vejas.Governance.Overlays
import Vejas.Http.Pages

/-! Where a flow's source comes from: the supervisor on the bus takes the version in force, the
API, a tool call and the replay of a literal take the file. They agree while no valid overlay
differs from the file. -/

namespace Vejas.Http
open Json Rust Vjs Governance Fallible

/-- What a replay finds to run on: the persisted messages of a subject, if the bus answers, and
the trace ring of a unit, oldest first. -/
structure Traffic where
  hydrate : String → Nat → Option (List (Nat × String × Value))
  ring : String → List Value

theorem fileSource_ok {cfg : Settings} {w : World} {file path text : String}
    (h : FlowFile cfg w file path text) :
    (do readFile (← guarded cfg file) : Gov String) w = (.ok text, w) := by
  rw [bind_ok h.guarded_run, readFile_run h.read]

/-- A valid overlay of the unit is stored whose source is not the file's. -/
def Overrides (versions : Kv) (unit baseline : String) : Prop :=
  ∃ ov src, overlayOf versions unit = some ov ∧ forkedFrom ov baseline = true ∧
    ov.text "source" = some src ∧ src ≠ baseline

theorem effectiveSource_eq_iff (seen : Bool) (versions : Kv) (unit baseline : String) :
    effectiveSource seen versions unit baseline = baseline ↔
      ¬ (seen = true ∧ Overrides versions unit baseline) := by
  unfold effectiveSource
  cases seen with
  | false => simp
  | true =>
    simp only [if_true, true_and]
    cases hov : overlayOf versions unit with
    | none =>
      refine iff_of_true rfl ?_
      rintro ⟨ov, src, hsome, -⟩
      rw [hov] at hsome
      cases hsome
    | some ov =>
      dsimp only
      cases hfork : forkedFrom ov baseline with
      | false =>
        refine iff_of_true rfl ?_
        rintro ⟨ov', src, hsome, hf, -⟩
        rw [hov] at hsome
        cases hsome
        rw [hfork] at hf
        cases hf
      | true =>
        simp only [if_true]
        cases hsrc : ov.text "source" with
        | none =>
          refine iff_of_true rfl ?_
          rintro ⟨ov', src, hsome, -, htext, -⟩
          rw [hov] at hsome
          cases hsome
          rw [hsrc] at htext
          cases htext
        | some src =>
          rw [Option.getD_some]
          constructor
          · rintro hsame ⟨ov', src', hsome, -, htext, hne⟩
            rw [hov] at hsome
            cases hsome
            rw [hsrc] at htext
            cases htext
            exact hne hsame
          · intro hno
            exact Decidable.byContradiction fun hne => hno ⟨ov, src, hov, hfork, hsrc, hne⟩

section
variable [External]

def supervisedSource (cfg : Settings) (fates : Fates) (unit path : String) : Gov String := do
  let baseline ← readFile path
  let store := (fates .connect).isOk && (fates .openVersions).isOk
  let (src, outcome) ← resolveSource store fates unit baseline
  match outcome with
  | .evicted parent baseHash =>
    ignore (toAudit fates unit (.obj [
      ("ts", .ofNat cfg.now), ("actor", .string "eviction"), ("unit", .string unit),
      ("kind", .string "overlay-evicted"), ("parent", .string parent),
      ("baseline", .string baseHash)]))
    pure src
  | _ => pure src

def runFlowOnInput (cfg : Settings) (site : Site) (file : String) (input : Value) :
    Gov (List Value) := do
  let path ← guarded cfg file
  let src ← readFile path
  let prog ← .reads fun _ => parse src
  let ctx ← .reads fun w =>
    (run prog input (.shadow (engineFiles w) cfg.root (pkgOfPath path) site.secrets)).1
  pure (ctx.emits.map fun e => .obj [("subject", .string e.1), ("payload", e.2)])

inductive Door
  | bus
  | api
  | tool
  deriving DecidableEq

def Door.source (cfg : Settings) (fates : Fates) (unit path file : String) : Door → Gov String
  | bus => supervisedSource cfg fates unit path
  | api => do readFile (← guarded cfg file)
  | tool => do readFile (← guarded cfg file)

def tracePreview (entry : Value) : String :=
  match entry.text "preview" with
  | some p => if p = "" then ((entry.get "event").map previewOf).getD "" else p
  | none => ((entry.get "event").map previewOf).getD ""

def replayEvents (traffic : Traffic) (source : Option String) (unit : String) (n : Nat) :
    List Value × String :=
  match source.bind fun subject => traffic.hydrate subject n with
  | some (row :: rows) =>
    ((row :: rows).map fun (seq, subject, event) => .obj [
      ("ts", .null), ("seq", .ofNat seq), ("subject", .string subject),
      ("preview", .string (previewOf event)), ("event", event)], "jetstream")
  | _ => ((traffic.ring unit).reverse.take (max 1 (min n 50)), "trace-ring")

def shadowEmits (cfg : Settings) (site : Site) (pkg : String) (prog : Program) (event : Value) :
    Gov Value := do
  let result ← caught <| .reads fun w =>
    (run prog event (.shadow (engineFiles w) cfg.root pkg site.secrets)).1
  match result with
  | .ok ctx => pure (.obj [("emits", emitsJson ctx.emits), ("error", .null)])
  | .error e => pure (.obj [("emits", .array []), ("error", .string e)])

def replayRows (cfg : Settings) (site : Site) (pkg : String) (before after : Program) :
    List Value → Gov (List Value × Nat)
  | [] => pure ([], 0)
  | entry :: entries => do
    match (entry.get "event").getD .null with
    | .null => replayRows cfg site pkg before after entries
    | event =>
      let b ← shadowEmits cfg site pkg before event
      let a ← shadowEmits cfg site pkg after event
      let row := .obj [("ts", entry.index "ts"), ("subject", entry.index "subject"),
        ("preview", .string (tracePreview entry)), ("before", b), ("after", a),
        ("changed", .bool (!b.eq a))]
      let (rows, changed) ← replayRows cfg site pkg before after entries
      pure (row :: rows, if b.eq a then changed else changed + 1)

def replaySources (cfg : Settings) (file name key : String) (value : Value) :
    Gov (String × String × String) := do
  let path ← guarded cfg file
  let src ← readFile path
  let patched ← .reads fun _ => setLiteral src name key value
  pure (path, src, patched)

def replayLiteral (cfg : Settings) (site : Site) (traffic : Traffic) (file name key : String)
    (value : Value) (n : Nat) : Gov Value := do
  let (path, src, patched) ← replaySources cfg file name key value
  let before ← .reads fun _ => parse src
  let after ← .reads fun _ => parse patched
  let (events, source) := replayEvents traffic before.source (flowProcName path) n
  let (results, changed) ← replayRows cfg site (pkgOfPath path) before after events
  pure (.obj [("file", .string file), ("name", .string name), ("key", .string key),
    ("value", value), ("source", .string source), ("events", .ofNat results.length),
    ("changed", .ofNat changed), ("results", .array results)])

theorem runFlowCtx_source {cfg : Settings} {site : Site} {fates : Fates} {unit file path text : String}
    {w : World} (input : Value) (h : FlowFile cfg w file path text) :
    ∃ src, (Door.source cfg fates unit path file .api w).1 = .ok src ∧
      runFlowCtx cfg site file input w = (do
        let prog ← .reads fun _ => parse src
        .reads fun w => (run prog input
          (.withSecrets (engineFiles w) cfg.root (pkgOfPath path) site.secrets)).1 : Gov Ctx) w := by
  refine ⟨text, congrArg Prod.fst (fileSource_ok h), ?_⟩
  unfold runFlowCtx
  rw [bind_ok h.guarded_run, bind_ok (readFile_run h.read)]

theorem runFlowOnInput_source {cfg : Settings} {site : Site} {fates : Fates}
    {unit file path text : String} {w : World} (input : Value) (h : FlowFile cfg w file path text) :
    ∃ src, (Door.source cfg fates unit path file .tool w).1 = .ok src ∧
      runFlowOnInput cfg site file input w = (do
        let prog ← .reads fun _ => parse src
        let ctx ← .reads fun w =>
          (run prog input (.shadow (engineFiles w) cfg.root (pkgOfPath path) site.secrets)).1
        pure (ctx.emits.map fun e => .obj [("subject", .string e.1), ("payload", e.2)]) :
          Gov (List Value)) w := by
  refine ⟨text, congrArg Prod.fst (fileSource_ok h), ?_⟩
  unfold runFlowOnInput
  rw [bind_ok h.guarded_run, bind_ok (readFile_run h.read)]

def storeSeen (fates : Fates) : Bool := (fates .connect).isOk && sees fates

theorem supervisedSource_ok {cfg : Settings} {fates : Fates} {unit path text : String} {w : World}
    (h : w.files path = .ok text) :
    (supervisedSource cfg fates unit path w).1 =
      .ok (effectiveSource (storeSeen fates) w.versions unit text) := by
  obtain ⟨o, w', hres, -⟩ := resolveSource_run ((fates .connect).isOk && (fates .openVersions).isOk)
    fates unit text w
  have hseen : ((fates .connect).isOk && (fates .openVersions).isOk && (fates .getVersion).isOk) =
      storeSeen fates := Bool.and_assoc _ _ _
  rw [hseen] at hres
  unfold supervisedSource
  rw [bind_ok (readFile_run h)]
  dsimp only
  rw [bind_ok hres]
  dsimp only
  cases o with
  | baseline => rfl
  | overlay => rfl
  | evicted parent baseHash =>
    dsimp only
    obtain ⟨w'', hig⟩ := ignore_run (m := toAudit fates unit (.obj [
      ("ts", .ofNat cfg.now), ("actor", .string "eviction"), ("unit", .string unit),
      ("kind", .string "overlay-evicted"), ("parent", .string parent),
      ("baseline", .string baseHash)])) (perform_ne_panic _ _ w')
    rw [bind_ok hig]
    rfl

theorem doors_iff {cfg : Settings} {fates : Fates} {unit file path baseline src : String} {w : World}
    (hfile : FlowFile cfg w file path baseline) :
    (∀ door, (Door.source cfg fates unit path file door w).1 = .ok src) ↔
      effectiveSource (storeSeen fates) w.versions unit baseline = src ∧ baseline = src := by
  constructor
  · intro h
    have hbus := (supervisedSource_ok hfile.read).symm.trans (h .bus)
    have hapi := (congrArg Prod.fst (fileSource_ok hfile)).symm.trans (h .api)
    exact ⟨Except.ok.inj hbus, Except.ok.inj hapi⟩
  · rintro ⟨hbus, rfl⟩ door
    cases door with
    | bus =>
      rw [← hbus]
      exact supervisedSource_ok hfile.read
    | api => exact congrArg Prod.fst (fileSource_ok hfile)
    | tool => exact congrArg Prod.fst (fileSource_ok hfile)

/-- Every door parses the source `resolve_source` returns for the unit exactly if the supervisor
sees no valid overlay that differs from the file; and after a promote that returned `Ok`, all
doors parse the promoted source exactly if it is the text of the file and, where the live unit goes
by another name than the promote's, the supervisor sees no such overlay of it either. -/
theorem doors_run_one_version_iff {cfg : Settings} {fates : Fates}
    {unit file path baseline src : String} {o : Outcome} {w w' : World}
    (hfile : FlowFile cfg w file path baseline)
    (hres : resolveSource ((fates .connect).isOk && (fates .openVersions).isOk) fates unit baseline w =
      (.ok (src, o), w')) :
    ((∀ door, (Door.source cfg fates unit path file door w).1 = .ok src) ↔
      ¬ (storeSeen fates = true ∧ Overrides w.versions unit baseline)) ∧
    ∀ (e : Edit) (promoteFates : Fates) (answer : Value) (after : World), e.now = cfg.now →
      promoteVersion cfg promoteFates file e.name e.key e.value e.actor w = (.ok answer, after) →
      storeSeen fates = true →
      ∃ new, setLiteral
          (effectiveSource (sees promoteFates) w.versions (flowProcName path) baseline)
          e.name e.key e.value = .ok new ∧
        ∀ live, ((∀ door, (Door.source cfg fates live path file door after).1 = .ok new) ↔
          new = baseline ∧ (live = flowProcName path ∨ ¬ Overrides after.versions live baseline)) := by
  have hsrc : src = effectiveSource (storeSeen fates) w.versions unit baseline := by
    obtain ⟨o', w₁, hrun, -⟩ := resolveSource_run
      ((fates .connect).isOk && (fates .openVersions).isOk) fates unit baseline w
    rw [Bool.and_assoc] at hrun
    obtain ⟨hval, -⟩ := Prod.mk.inj (hres.symm.trans hrun)
    exact (Prod.mk.inj (Except.ok.inj hval)).1
  refine ⟨?_, fun e promoteFates answer after hnow hprom hseen => ?_⟩
  · rw [doors_iff hfile, ← effectiveSource_eq_iff, hsrc]
    constructor
    · rintro ⟨-, hsame⟩
      exact hsame.symm
    · intro hsame
      exact ⟨rfl, hsame.symm⟩
  · obtain ⟨new, hset, hfile', hov⟩ := promoteVersion_stored e hnow hfile hprom
    refine ⟨new, hset, fun live => ?_⟩
    have heff : effectiveSource (storeSeen fates) after.versions (flowProcName path) baseline = new := by
      unfold effectiveSource
      rw [hseen, if_pos rfl, hov]
      dsimp only
      rw [versionRecord_forked, if_pos rfl, (versionRecord_text _ _ _ _ _).1, Option.getD_some]
    have hlive := effectiveSource_eq_iff true after.versions live baseline
    rw [eq_self_iff_true, true_and] at hlive
    rw [doors_iff hfile', hseen]
    rw [hseen] at heff
    constructor
    · rintro ⟨hbus, rfl⟩
      exact ⟨rfl, .inr (hlive.mp hbus)⟩
    · rintro ⟨rfl, rfl | hno⟩
      · exact ⟨heff, rfl⟩
      · exact ⟨hlive.mpr hno, rfl⟩

/-- The replay runs, as `before`, the source of the live flow, which the supervisor has under the name
`unit`, and as `after` the source a promote of the same literal would publish in the same state. -/
def PreviewsPromote (cfg : Settings) (fates : Fates) (unit file name key : String) (value : Value)
    (actor : String) (w : World) : Prop :=
  ∀ path before after, (replaySources cfg file name key value w).1 = .ok (path, before, after) →
    (supervisedSource cfg fates unit path w).1 = .ok before ∧
    ∃ answer w', promoteVersion cfg fates file name key value actor w = (.ok answer, w') ∧
      (overlayOf w'.versions (flowProcName path)).bind (·.text "source") = some after

/-- A valid overlay of the unit takes the edit to the text the file takes it to. -/
def EditsAlike (versions : Kv) (unit baseline name key : String) (value : Value) : Prop :=
  ∀ ov src, overlayOf versions unit = some ov → forkedFrom ov baseline = true →
    ov.text "source" = some src → setLiteral src name key value = setLiteral baseline name key value

omit [External] in
theorem effectiveSource_overlay {versions : Kv} {unit baseline src : String} {ov : Value} (hov : overlayOf versions unit = some ov)
    (hfork : forkedFrom ov baseline = true) (hsrc : ov.text "source" = some src) :
    effectiveSource true versions unit baseline = src := by
  unfold effectiveSource
  rw [if_pos rfl, hov]
  dsimp only
  rw [if_pos hfork, hsrc, Option.getD_some]

omit [External] in
theorem effectiveSource_cases (versions : Kv) (unit baseline : String) :
    effectiveSource true versions unit baseline = baseline ∨
      ∃ ov, overlayOf versions unit = some ov ∧ forkedFrom ov baseline = true ∧
        ov.text "source" = some (effectiveSource true versions unit baseline) := by
  refine Classical.or_iff_not_imp_left.mpr fun hne => ?_
  have hover : Overrides versions unit baseline := by
    by_contra hno
    exact hne ((effectiveSource_eq_iff true versions unit baseline).mpr fun h => hno h.2)
  obtain ⟨ov, src, hov, hfork, hsrc, -⟩ := hover
  exact ⟨ov, hov, hfork, by rw [effectiveSource_overlay hov hfork hsrc, hsrc]⟩

theorem editsAlike_iff {versions : Kv} {unit baseline name key : String} {value : Value} :
    EditsAlike versions unit baseline name key value ↔
      setLiteral (effectiveSource true versions unit baseline) name key value =
        setLiteral baseline name key value := by
  constructor
  · intro h
    rcases effectiveSource_cases versions unit baseline with hsame | ⟨ov, hov, hfork, hsrc⟩
    · rw [hsame]
    · exact h ov _ hov hfork hsrc
  · intro h ov src hov hfork hsrc
    rwa [effectiveSource_overlay hov hfork hsrc] at h

theorem replaySources_ok {cfg : Settings} {file path baseline name key : String} {value : Value}
    {w : World} (hfile : FlowFile cfg w file path baseline) :
    (replaySources cfg file name key value w).1 =
      (setLiteral baseline name key value).map fun patched => (path, baseline, patched) := by
  unfold replaySources
  rw [bind_ok hfile.guarded_run, bind_ok (readFile_run hfile.read)]
  cases hset : setLiteral baseline name key value with
  | error f => rfl
  | ok patched => rfl

/-- With the bus answering, a replay previews the promote exactly if it does not get to run, the
literal not being one the file has, or no valid overlay of the live unit differs from the file and
one under the name the promote goes by takes the edit to the same text. -/
theorem replay_previews_promote_iff {cfg : Settings} {fates : Fates} {unit file path baseline : String}
    {name key actor : String} {value : Value} {w : World} (hok : ∀ op, fates op = .ok)
    (hfile : FlowFile cfg w file path baseline) :
    PreviewsPromote cfg fates unit file name key value actor w ↔
      (∀ patched, setLiteral baseline name key value ≠ .ok patched) ∨
        ¬ Overrides w.versions unit baseline ∧
          EditsAlike w.versions (flowProcName path) baseline name key value := by
  have hisok : ∀ op, (fates op).isOk = true := by
    intro op
    rw [hok op]
    rfl
  have hseen : storeSeen fates = true := by simp [storeSeen, sees, hisok]
  have hsees : sees fates = true := by simp [sees, hisok]
  have hover := effectiveSource_eq_iff true w.versions unit baseline
  rw [eq_self_iff_true, true_and] at hover
  have hsup : (supervisedSource cfg fates unit path w).1 =
      .ok (effectiveSource true w.versions unit baseline) := by
    rw [← hseen]
    exact supervisedSource_ok hfile.read
  let e : Edit := ⟨name, key, value, actor, cfg.now⟩
  obtain ⟨w₁, -, hout⟩ := promoteVersion_outcome e rfl hfile (hisok .connect) (hisok .openVersions)
  rw [hsees, hok .putVersion] at hout
  unfold PreviewsPromote
  rw [replaySources_ok hfile, editsAlike_iff]
  cases hset : setLiteral baseline name key value with
  | error f => exact iff_of_true (fun _ _ _ hrun => by cases hrun) (.inl fun _ h => by cases h)
  | ok after =>
    have hruns : ¬ ∀ patched, (Except.ok after : Except Fault String) ≠ .ok patched :=
      fun hno => hno after rfl
    rw [or_iff_right hruns, ← hover]
    constructor
    · intro h
      obtain ⟨hbefore, answer, w', hprom, hpublished⟩ := h path baseline after rfl
      refine ⟨Except.ok.inj (hsup.symm.trans hbefore), ?_⟩
      -- the promote published what it made of the source it found
      cases hnew : setLiteral (effectiveSource true w.versions (flowProcName path) baseline) name key value with
      | error f =>
        rw [show setLiteral _ e.name e.key e.value = .error f from hnew] at hout
        cases hout.1.symm.trans (congrArg Prod.fst hprom)
      | ok new =>
        rw [show setLiteral _ e.name e.key e.value = .ok new from hnew] at hout
        have hw' : w' = _ := (congrArg Prod.snd hprom).symm
        rw [hw'] at hpublished
        unfold overlayOf at hpublished
        rw [hout.2, get?_put, Option.bind_some, versionRecord_reads, Option.bind_some] at hpublished
        have hsame := (versionRecord_text _ new _ _ _).1.symm.trans hpublished
        rw [Option.some.inj hsame]
    · rintro ⟨heff, hedit⟩ path' before' after' hrun
      cases hrun
      refine ⟨hsup.trans (congrArg _ heff), ?_⟩
      rw [show setLiteral _ e.name e.key e.value = .ok after from hedit] at hout
      refine ⟨promoted (flowProcName path) baseline, _, Prod.ext hout.1 rfl, ?_⟩
      unfold overlayOf
      rw [hout.2, get?_put, Option.bind_some, versionRecord_reads, Option.bind_some]
      exact (versionRecord_text _ _ _ _ _).1

end

def allDone : Fates := fun _ => .ok

def deployed : World := { overlaid with versions := [] }

theorem flowFile_overlaid : FlowFile (settingsOf true) overlaid "flows/a.vjs" "/p/flows/a.vjs"
    (minFlow "10") := ⟨by decide +kernel, rfl⟩

theorem flowFile_deployed : FlowFile (settingsOf true) deployed "flows/a.vjs" "/p/flows/a.vjs"
    (minFlow "10") := ⟨by decide +kernel, rfl⟩

theorem doors_run_one_version_deployed :
    sees allDone = true ∧ ∀ door, (@Door.source ascii (settingsOf true) allDone "flow:a"
      "/p/flows/a.vjs" "flows/a.vjs" door deployed).1 = .ok (minFlow "10") := by
  refine ⟨rfl, (@doors_run_one_version_iff ascii _ _ _ _ _ _ _ .baseline _ deployed
    flowFile_deployed rfl).1.mpr ?_⟩
  rintro ⟨-, ov, src, hov, -⟩
  cases hov

/-- The bus runs the overlay, the API and a tool call run the file. -/
theorem doors_run_two_versions :
    (@Door.source ascii (settingsOf true) allDone "flow:a" "/p/flows/a.vjs" "flows/a.vjs" .bus
      overlaid).1.toOption = some (minFlow "20") ∧
    (@Door.source ascii (settingsOf true) allDone "flow:a" "/p/flows/a.vjs" "flows/a.vjs" .api
      overlaid).1.toOption = some (minFlow "10") ∧
    (@Door.source ascii (settingsOf true) allDone "flow:a" "/p/flows/a.vjs" "flows/a.vjs" .tool
      overlaid).1.toOption = some (minFlow "10") ∧ minFlow "10" ≠ minFlow "20" := by
  refine ⟨by decide +kernel, by decide +kernel, by decide +kernel, by decide +kernel⟩

theorem replay_previews_promote_deployed :
    @PreviewsPromote ascii (settingsOf true) allDone "flow:a" "flows/a.vjs" "MIN" "-" (.ofNat 30) "ana"
      deployed := by
  refine (@replay_previews_promote_iff ascii _ _ _ _ _ _ _ _ _ _ _ (fun _ => rfl)
    flowFile_deployed).mpr (.inr ⟨?_, ?_⟩)
  · rintro ⟨ov, src, hov, -⟩
    cases hov
  · intro ov src hov
    cases hov

/-- With an overlay in force, the replay compares the file with an edit of the file. -/
theorem replay_previews_the_file :
    ¬ @PreviewsPromote ascii (settingsOf true) allDone "flow:a" "flows/a.vjs" "MIN" "-" (.ofNat 30) "ana"
      overlaid := by
  intro h
  have hbus : (@supervisedSource ascii (settingsOf true) allDone "flow:a" "/p/flows/a.vjs"
      overlaid).1.toOption = some (minFlow "20") := by decide +kernel
  have hset : (@setLiteral ascii (minFlow "10") "MIN" "-" (.ofNat 30)).toOption = some (minFlow "30") := by
    decide +kernel
  have hrun := @replaySources_ok ascii _ _ _ _ "MIN" "-" (.ofNat 30) _ flowFile_overlaid
  cases hnew : @setLiteral ascii (minFlow "10") "MIN" "-" (.ofNat 30) with
  | error f =>
    rw [hnew] at hset
    cases hset
  | ok patched =>
    rw [hnew] at hrun
    have hbefore := (h _ _ _ hrun).1
    rw [hbefore] at hbus
    exact absurd (Option.some.inj hbus) (by decide +kernel)

end Vejas.Http
