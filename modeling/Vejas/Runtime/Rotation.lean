import Vejas.Runtime.Units
import Vejas.Vjs.Secrets

/-! Rotating a secret: the connectors whose configuration was evaluated from it are restarted, as far
as their files name it. -/

namespace Vejas.Runtime
open Json Rust Vjs

def isConfigName (k : String) : Bool := k != "event" && isConstantName k

def evaluateConfig [External] (known : String → Bool) (src : String) (eng : Engine) : Except Fault Map × Engine :=
  match parse src with
  | .error f => (.error f, eng)
  | .ok prog =>
    match prog.driver with
    | none => (.error (.err "no `driver` declaration"), eng)
    | some driver =>
      if !known driver then (.error (.err ("unknown driver " ++ debugStr driver)), eng)
      else
        match run prog (.object []) eng with
        | (.error f, eng) => (.error f, eng)
        | (.ok ctx, eng) => (.ok (ctx.vars.filter fun p => isConfigName p.1), eng)

structure Handle where
  id : Nat
  spec : Spec

/-- The registry of units, the handles that were told to stop, and the rotations an operator asked for. -/
structure Registry where
  units : List (String × Handle)
  stopped : List Handle
  next : Nat
  rotations : List String

namespace Registry

def get? (r : Registry) (name : String) : Option Handle := r.units.lookup name

def startProc (r : Registry) (spec : Spec) : Registry :=
  { r with units := (spec.name, ⟨r.next, spec⟩) :: r.units, next := r.next + 1 }

def stop (r : Registry) (name : String) : Registry := { r with stopped := r.stopped ++ (r.get? name).toList }

def clearRotation (r : Registry) (reference : String) : Registry :=
  { r with rotations := r.rotations.filter (· != reference) }

end Registry

def restartUnit (specs : List Spec) (name : String) (r : Registry) : Bool × Registry :=
  match specs.find? (·.name == name) with
  | none => (false, r)
  | some spec => (true, (r.stop name).startProc spec)

section
variable [External]

def restartUsers (specs : List Spec) (read : List Bytes → Option String) (reference : String) :
    List Spec → Registry → Except Fault (List String) × Registry
  | [], r => (.ok [], r)
  | spec :: rest, r =>
    match (read spec.path).map parse with
    | none => restartUsers specs read reference rest r
    | some (.error .panic) => (.error .panic, r)
    | some (.error _) => restartUsers specs read reference rest r
    | some (.ok prog) =>
      if prog.secretRefs.any (·.2 == reference) then
        let (restarted, r) := restartUnit specs spec.name r
        match restartUsers specs read reference rest r with
        | (.ok names, r) => (.ok (if restarted then spec.name :: names else names), r)
        | (.error f, r) => (.error f, r)
      else restartUsers specs read reference rest r

def setSecret (stored : Except String Unit) (tree : Tree) (read : List Bytes → Option String) (reference : String)
    (r : Registry) : Except Fault (List String) × Registry :=
  match stored with
  | .error e => (.error (.err e), r)
  | .ok () =>
    match scanAll tree with
    | .error f => (.error f, r.clearRotation reference)
    | .ok specs => restartUsers specs read reference specs (r.clearRotation reference)

def Uses (read : List Bytes → Option String) (reference : String) (spec : Spec) : Prop :=
  ∃ src prog v, read spec.path = some src ∧ parse src = .ok prog ∧ (v, reference) ∈ prog.secretRefs

def Replaced (h : Handle) (k : Nat) (r : Registry) : Prop :=
  h ∈ r.stopped ∧ k ≤ r.next ∧ ∃ h', r.get? h.spec.name = some h' ∧ k ≤ h'.id ∧ h'.spec = h.spec

def Held (h : Handle) (k : Nat) (r : Registry) : Prop :=
  r.get? h.spec.name = some h ∧ k ≤ r.next ∨ Replaced h k r

def Sole (specs : List Spec) (spec : Spec) : Prop := ∀ s ∈ specs, s.name = spec.name → s = spec

omit [External] in
theorem restartUnit_eq {specs : List Spec} {spec : Spec} (h : spec ∈ specs) (r : Registry) :
    ∃ spec' ∈ specs, spec'.name = spec.name ∧ restartUnit specs spec.name r = (true, (r.stop spec.name).startProc spec') := by
  unfold restartUnit
  cases hfind : specs.find? (·.name == spec.name) with
  | none => exact absurd rfl (ne_of_beq_false (Bool.eq_false_iff.mpr (List.find?_eq_none.mp hfind spec h)))
  | some spec' =>
    have hname := List.find?_some hfind
    exact ⟨spec', List.mem_of_find?_eq_some hfind, beq_iff_eq.mp hname, rfl⟩

omit [External] in
theorem get?_restarted (r : Registry) {name : String} {spec : Spec} (hname : spec.name = name) (other : String) :
    ((r.stop name).startProc spec).get? other = if other = name then some ⟨r.next, spec⟩ else r.get? other := by
  unfold Registry.get? Registry.startProc
  rw [List.lookup_cons, hname]
  by_cases ho : other = name
  · rw [if_pos ho, ho, beq_self_eq_true]
    rfl
  · rw [if_neg ho, beq_false_of_ne ho]
    rfl

omit [External] in
theorem stopped_restarted (r : Registry) (name : String) (spec : Spec) :
    ((r.stop name).startProc spec).stopped = r.stopped ++ (r.get? name).toList := rfl

omit [External] in
theorem Replaced.restarted {h : Handle} {k : Nat} {r : Registry} {spec : Spec} (hr : Replaced h k r)
    (hsole : spec.name = h.spec.name → spec = h.spec) : Replaced h k ((r.stop spec.name).startProc spec) := by
  obtain ⟨hstop, hk, h', hget, hid, hsame⟩ := hr
  refine ⟨List.mem_append_left _ hstop, Nat.le_succ_of_le hk, ?_⟩
  rw [get?_restarted r rfl]
  split
  next hname => exact ⟨_, rfl, hk, hsole hname.symm⟩
  next => exact ⟨h', hget, hid, hsame⟩

omit [External] in
theorem Held.restarted {h : Handle} {k : Nat} {r : Registry} {spec : Spec} (hr : Held h k r)
    (hsole : spec.name = h.spec.name → spec = h.spec) : Held h k ((r.stop spec.name).startProc spec) ∧
      (h.spec.name = spec.name → Replaced h k ((r.stop spec.name).startProc spec)) := by
  rcases hr with ⟨hget, hk⟩ | hr
  · by_cases hn : h.spec.name = spec.name
    · have hreplaced : Replaced h k ((r.stop spec.name).startProc spec) := by
        refine ⟨?_, Nat.le_succ_of_le hk, ⟨r.next, spec⟩, ?_, hk, hsole hn.symm⟩
        · rw [stopped_restarted, ← hn, hget]
          exact List.mem_append_right _ List.mem_cons_self
        · rw [get?_restarted r rfl, if_pos hn]
      exact ⟨.inr hreplaced, fun _ => hreplaced⟩
    · refine ⟨.inl ⟨?_, Nat.le_succ_of_le hk⟩, fun h => absurd h hn⟩
      rw [get?_restarted r rfl, if_neg hn]
      exact hget
  · exact ⟨.inr (hr.restarted hsole), fun _ => hr.restarted hsole⟩

/-- What the restarts leave of the units that no other has the name of: every unit that uses the secret
is among them, and was replaced. -/
structure Restarted (specs : List Spec) (read : List Bytes → Option String) (reference : String) (l : List Spec)
    (names : List String) (r r' : Registry) : Prop where
  held : ∀ h k, Sole specs h.spec → Held h k r → Held h k r'
  replaced : ∀ h k, Sole specs h.spec → Replaced h k r → Replaced h k r'
  named : ∀ spec ∈ l, Uses read reference spec → spec.name ∈ names
  users : ∀ h k, h.spec ∈ l → Sole specs h.spec → Uses read reference h.spec → Held h k r → Replaced h k r'

theorem Restarted.skip {specs : List Spec} {read : List Bytes → Option String} {reference : String} {spec : Spec}
    {l : List Spec} {names : List String} {r r' : Registry} (h : Restarted specs read reference l names r r')
    (hnot : ¬ Uses read reference spec) : Restarted specs read reference (spec :: l) names r r' := by
  refine ⟨h.held, h.replaced, fun s hs hu => ?_, fun s k hs hsole hu => ?_⟩
  · rcases List.mem_cons.mp hs with rfl | hs
    · exact absurd hu hnot
    · exact h.named s hs hu
  · rcases List.mem_cons.mp hs with heq | hs
    · exact absurd (heq ▸ hu) hnot
    · exact h.users s k hs hsole hu

theorem restartUsers_restarted {specs : List Spec} {read : List Bytes → Option String} {reference : String}
    {l : List Spec} (hl : ∀ spec ∈ l, spec ∈ specs)
    (hpanic : ∀ spec ∈ l, ∀ src, read spec.path = some src → parse src ≠ .error .panic) (r : Registry) :
    ∃ names r', restartUsers specs read reference l r = (.ok names, r') ∧ Restarted specs read reference l names r r' := by
  induction l generalizing r with
  | nil => exact ⟨[], r, rfl, fun _ _ _ h => h, fun _ _ _ h => h, nofun, nofun⟩
  | cons spec l ih =>
    have ih := ih (fun s hs => hl s (List.mem_cons_of_mem _ hs)) (fun s hs => hpanic s (List.mem_cons_of_mem _ hs))
    have hskip : ¬ Uses read reference spec → restartUsers specs read reference (spec :: l) r =
        restartUsers specs read reference l r → ∃ names r',
          restartUsers specs read reference (spec :: l) r = (.ok names, r') ∧
            Restarted specs read reference (spec :: l) names r r' := by
      intro hnot heq
      obtain ⟨names, r', hrun, hdone⟩ := ih r
      exact ⟨names, r', heq.trans hrun, hdone.skip hnot⟩
    cases hread : read spec.path with
    | none =>
      refine hskip ?_ (by rw [restartUsers, hread]; rfl)
      rintro ⟨src, prog, v, hsrc, -⟩
      rw [hread] at hsrc
      cases hsrc
    | some src =>
      cases hparse : parse src with
      | error f =>
        refine hskip ?_ ?_
        · rintro ⟨src', prog, v, hsrc, hprog, -⟩
          rw [hread] at hsrc
          cases hsrc
          rw [hparse] at hprog
          cases hprog
        · rw [restartUsers, hread]
          cases f with
          | panic => exact absurd hparse (hpanic spec List.mem_cons_self src hread)
          | err e => rw [Option.map_some, hparse]
          | outOfFuel => rw [Option.map_some, hparse]
      | ok prog =>
        by_cases hany : prog.secretRefs.any (·.2 == reference) = true
        · obtain ⟨spec', hin, hname, hrestart⟩ := restartUnit_eq (hl spec List.mem_cons_self) r
          obtain ⟨names, r', hrun, hdone⟩ := ih ((r.stop spec.name).startProc spec')
          refine ⟨spec.name :: names, r', ?_, ?_⟩
          · rw [restartUsers, hread, Option.map_some, hparse]
            dsimp only
            rw [if_pos hany, hrestart]
            dsimp only
            rw [hrun]
            rfl
          · rw [← hname] at hdone
            refine ⟨fun h k hsole hh => hdone.held h k hsole (hh.restarted (hsole spec' hin)).1,
              fun h k hsole hh => hdone.replaced h k hsole (hh.restarted (hsole spec' hin)), fun s hs hu => ?_,
              fun h k hs hsole hu hh => ?_⟩
            · rcases List.mem_cons.mp hs with rfl | hs
              · exact List.mem_cons_self
              · exact List.mem_cons_of_mem _ (hdone.named s hs hu)
            · have hrestarted := hh.restarted (hsole spec' hin)
              rcases List.mem_cons.mp hs with heq | hs
              · exact hdone.replaced h k hsole (hrestarted.2 (by rw [heq, hname]))
              · exact hdone.users h k hs hsole hu hrestarted.1
        · refine hskip ?_ ?_
          · rintro ⟨src', prog', v, hsrc, hprog, hv⟩
            rw [hread] at hsrc
            cases hsrc
            rw [hparse] at hprog
            cases hprog
            exact hany (List.any_eq_true.mpr ⟨(v, reference), hv, beq_self_eq_true _⟩)
          · rw [restartUsers, hread, Option.map_some, hparse]
            dsimp only
            rw [if_neg hany]

/-- The unit's configuration comes from its file as it stands, and the evaluation looked `reference` up. -/
def ConfiguredFrom (read : List Bytes → Option String) (known : String → Bool) (files : String → Option String)
    (root : String) (secrets : SecretStore) (spec : Spec) (reference : String) : Prop :=
  ∃ src config eng owner, read spec.path = some src ∧
    evaluateConfig known src (.withSecrets files root spec.pkg secrets) = (.ok config, eng) ∧ (owner, reference) ∈ eng.gets

/-- Every `secret` call of the unit's file names its reference, and the file invokes nothing. -/
def Static (read : List Bytes → Option String) (spec : Spec) : Prop :=
  ∀ src prog, read spec.path = some src → parse src = .ok prog → NamesSecrets prog.stmts ∧ InvokesNothing prog.stmts

theorem uses_of_configured {read : List Bytes → Option String} {known : String → Bool} {files : String → Option String}
    {root : String} {secrets : SecretStore} {spec : Spec} {reference : String} (hstatic : Static read spec)
    (h : ConfiguredFrom read known files root secrets spec reference) : Uses read reference spec := by
  obtain ⟨src, config, eng, owner, hread, heval, hget⟩ := h
  unfold evaluateConfig at heval
  cases hparse : parse src with
  | error f =>
    rw [hparse] at heval
    cases heval
  | ok prog =>
    rw [hparse] at heval
    dsimp only at heval
    split at heval
    · cases heval
    · split at heval
      · cases heval
      · obtain ⟨hnames, hnothing⟩ := hstatic src prog hread hparse
        have hown := run_own hnothing (.object []) (.withSecrets files root spec.pkg secrets)
        have hinv := run_inventoried (secretRefs_of_parse hparse) hnames (.object [])
          (.withSecrets files root spec.pkg secrets)
        have heng : eng = (run prog (.object []) (.withSecrets files root spec.pkg secrets)).2 := by
          rcases hrun : run prog (.object []) (.withSecrets files root spec.pkg secrets) with ⟨f | ctx, e⟩
          · rw [hrun] at heval
            cases heval
          · rw [hrun] at heval
            cases heval
            rfl
        rw [heng] at hget
        rcases hinv _ hget with hbase | hother | ⟨v, hv⟩
        · cases hbase
        · rcases hown _ hget with hbase | howner
          · cases hbase
          · exact absurd howner hother
        · exact ⟨src, prog, v, hread, hparse, hv⟩

/-- What the statements of a program look up is in its inventory if each of its `secret` calls names the
reference; and then a rotation restarts every connector that is configured from the secret by a file that
invokes nothing, if no other unit has its name. -/
theorem secret_inventory_exhaustive :
    (∀ src prog, parse src = .ok prog → NamesSecrets prog.stmts → ∀ event eng reference,
      (.program eng.callerPkg, reference) ∈ (run prog event eng).2.gets →
        (.program eng.callerPkg, reference) ∈ eng.gets ∨ ∃ v, (v, reference) ∈ prog.secretRefs) ∧
    ∀ tree specs read known files root secrets reference r (h : Handle), scanAll tree = .ok specs → h.spec ∈ specs →
      Sole specs h.spec → (∀ spec ∈ specs, ∀ src, read spec.path = some src → parse src ≠ .error .panic) →
      r.get? h.spec.name = some h → Static read h.spec →
      ConfiguredFrom read known files root secrets h.spec reference →
      ∃ names r', setSecret (.ok ()) tree read reference r = (.ok names, r') ∧ h.spec.name ∈ names ∧
        h ∈ r'.stopped ∧ ∃ h', r'.get? h.spec.name = some h' ∧ r.next ≤ h'.id ∧ h'.spec = h.spec := by
  refine ⟨fun src prog hparse hnames event eng reference hget => ?_, ?_⟩
  · rcases run_inventoried (secretRefs_of_parse hparse) hnames event eng _ hget with hbase | hother | href
    · exact .inl hbase
    · exact absurd rfl hother
    · exact .inr href
  · intro tree specs read known files root secrets reference r h hscan hspec hsole hpanic hget hstatic hconf
    have huses := uses_of_configured hstatic hconf
    obtain ⟨names, r', hrun, hdone⟩ := restartUsers_restarted (fun s hs => hs) hpanic (r.clearRotation reference)
    have hheld : Held h r.next (r.clearRotation reference) := .inl ⟨hget, Nat.le_refl _⟩
    obtain ⟨hstop, -, h', hget', hid, hsame⟩ := hdone.users h r.next hspec hsole huses hheld
    refine ⟨names, r', ?_, hdone.named h.spec hspec huses, hstop, h', hget', hid, hsame⟩
    unfold setSecret
    rw [hscan]
    exact hrun

end

def gateway : Tree where
  units
    | .connector => some [⟨bytesOf "http.vjs", 0⟩]
    | _ => none
  packages := none

def gatewaySpec : Spec :=
  ⟨"connector:http", 0, [bytesOf "connectors", bytesOf "http.vjs"], "default", .connector⟩

def gatewayHandle : Handle := ⟨0, gatewaySpec⟩

def gatewayRegistry : Registry := ⟨[("connector:http", gatewayHandle)], [], 1, []⟩

def gatewayFile (src : String) : List Bytes → Option String := fun _ => some src

def namedKey : String := "driver \"http\"\nKEY = secret(\"api/key\")\n"

def heldKey : String := "driver \"http\"\nNAME = \"api/key\"\nKEY = secret(NAME)\n"

def namedKeyProgram : Program where
  source := none
  tool := none
  api := none
  driver := some "http"
  stmts := [.assign ["KEY"] (.call "secret" [.lit (.string "api/key")])]
  surface := []
  emitSubjects := []
  invokes := []
  secretRefs := [("KEY", "api/key")]

theorem scanAll_gateway : @scanAll ascii gateway = .ok [gatewaySpec] := by
  show Except.ok ([gatewaySpec].mergeSort _) = _
  rw [List.mergeSort_singleton]

theorem exprIn_namedKey {c : Expr} (h : ExprIn c namedKeyProgram.stmts) :
    c = .call "secret" [.lit (.string "api/key")] ∨ c = .lit (.string "api/key") := by
  obtain ⟨t, e, ⟨s, hs, hn⟩, he, hc⟩ := h
  cases List.mem_singleton.mp hs
  rcases hn.cases_tail with rfl | ⟨m, -, hm⟩
  · cases he
    rcases hc.cases_tail with rfl | ⟨m, hm, hop⟩
    · exact .inl rfl
    · cases hop with
      | callArg harg =>
        cases List.mem_singleton.mp harg
        rcases hm.cases_tail with rfl | ⟨m, -, hop⟩
        · exact .inr rfl
        · cases hop
  · cases hm

theorem namedKey_static : NamesSecrets namedKeyProgram.stmts ∧ InvokesNothing namedKeyProgram.stmts := by
  refine ⟨fun args hin e he => ?_, fun name args => ⟨fun hin => ?_, ?_⟩⟩
  · rcases exprIn_namedKey hin with heq | heq
    · cases heq
      cases he
      exact ⟨_, rfl⟩
    · cases heq
  · rcases exprIn_namedKey hin with heq | heq
    · cases heq
    · cases heq
  · rintro ⟨s, hs, hn⟩
    cases List.mem_singleton.mp hs
    rcases hn.cases_tail with heq | ⟨m, -, hm⟩
    · cases heq
    · cases hm

theorem secret_inventory_exhaustive_gateway :
    ∃ names r', @setSecret ascii (.ok ()) gateway (gatewayFile namedKey) "api/key" gatewayRegistry = (.ok names, r') ∧
      "connector:http" ∈ names ∧ gatewayHandle ∈ r'.stopped ∧
      ∃ h', r'.get? "connector:http" = some h' ∧ 1 ≤ h'.id ∧ h'.spec = gatewaySpec := by
  have hparse : @parse ascii namedKey = .ok namedKeyProgram := rfl
  have hstatic : @Static ascii (gatewayFile namedKey) gatewaySpec := by
    intro src prog hread hprog
    cases hread
    rw [hparse] at hprog
    cases hprog
    exact namedKey_static
  refine (@secret_inventory_exhaustive ascii).2 gateway [gatewaySpec] (gatewayFile namedKey) (fun _ => true) (fun _ => none)
    "/p" (fun _ => .ok "s3cret") "api/key" gatewayRegistry gatewayHandle scanAll_gateway List.mem_cons_self
    (fun spec hspec _ => List.mem_singleton.mp hspec) ?_ rfl hstatic ?_
  · intro spec _ src hread
    cases hread
    rw [hparse]
    nofun
  · refine ⟨namedKey, [("KEY", .string "s3cret")], _, .program "default", rfl, rfl, ?_⟩
    exact List.mem_cons_self

/-- A reference held in a constant is looked up but not in the inventory, and its rotation restarts nobody. -/
theorem secret_inventory_misses_constant :
    (∃ prog, @parse ascii heldKey = .ok prog ∧ prog.secretRefs = [] ∧
      (@run ascii prog (.object []) (.withSecrets (fun _ => none) "/p" "default" fun _ => .ok "s3cret")).2.gets =
        [(.program "default", "api/key")]) ∧
    (@evaluateConfig ascii (fun _ => true) heldKey
      (.withSecrets (fun _ => none) "/p" "default" fun _ => .ok "s3cret")).2.gets = [(.program "default", "api/key")] ∧
    (@setSecret ascii (.ok ()) gateway (gatewayFile heldKey) "api/key" gatewayRegistry).1 = .ok [] := by
  refine ⟨⟨_, rfl, rfl, rfl⟩, rfl, ?_⟩
  unfold setSecret
  rw [scanAll_gateway]
  rfl

end Vejas.Runtime
