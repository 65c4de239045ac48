import Vejas.Vjs.Induction

/-! Package privacy: a service body runs for an invoke in the code of another
package only if that package's manifest exports it. The package the engine
resolves in is the package of the file whose statements are running, and its
caches hold what the files say. -/

namespace Vejas.Vjs
open Json Rust Run

theorem colon_notMem {s : String} (h : validName s = true) : ':' ∉ s.toList := by
  intro hm
  simp only [validName, Bool.and_eq_true, List.all_eq_true] at h
  exact absurd (h.2 ':' hm) (by decide)

theorem serviceKey_inj {pkg svc pkg' svc' : String} (hp : validName pkg = true)
    (hp' : validName pkg' = true) (h : pkg ++ ":" ++ svc = pkg' ++ ":" ++ svc') :
    pkg = pkg' ∧ svc = svc' := by
  have hl := congrArg String.toList h
  simp only [String.toList_append] at hl
  have hs := congrArg (splitOnceChars ':') hl
  simp only [List.append_assoc] at hs
  rw [show (":" : String).toList = [':'] from rfl, List.singleton_append, List.singleton_append,
    splitOnceChars_append (colon_notMem hp), splitOnceChars_append (colon_notMem hp')] at hs
  simp only [Option.some.injEq, Prod.mk.injEq] at hs
  exact ⟨String.toList_injective hs.1, String.toList_injective hs.2⟩

section
variable [External]

def Exported (files : String → Option String) (root pkg svc : String) : Prop :=
  ∃ l, manifestExports files root pkg = .ok l ∧ svc ∈ l

/-- The body that ran is the one in the service's file, and its caller had a right to it. -/
def Call.Allowed (files : String → Option String) (root : String) : Call → Prop
  | .resolve _ _ => True
  | .execute by_ pkg svc body =>
    (∃ prog, serviceProgram files root pkg svc = .ok prog ∧ prog.stmts = body) ∧
      (by_.pkg = pkg ∨ Exported files root pkg svc)

/-- Over the files `files` under `root`, the caches are true to them and every call
so far was allowed. -/
structure Engine.Lawful (files : String → Option String) (root : String) (e : Engine) : Prop where
  files_eq : e.files = files
  root_eq : e.projectRoot = root
  exports_ok : ∀ pkg l, e.exports.lookup pkg = some l → manifestExports files root pkg = .ok l
  cache_ok : ∀ key prog, e.cache.lookup key = some prog → ∃ pkg svc,
    validName pkg = true ∧ key = pkg ++ ":" ++ svc ∧ serviceProgram files root pkg svc = .ok prog
  calls_ok : ∀ c ∈ e.calls, c.Allowed files root

variable {files : String → Option String} {root : String} {e : Engine}

theorem Engine.Lawful.enter (h : e.Lawful files root) (pkg : String) :
    (e.enter pkg).Lawful files root :=
  ⟨h.files_eq, h.root_eq, h.exports_ok, h.cache_ok, h.calls_ok⟩

theorem Engine.Lawful.descend (h : e.Lawful files root) : e.descend.Lawful files root :=
  ⟨h.files_eq, h.root_eq, h.exports_ok, h.cache_ok, h.calls_ok⟩

theorem Engine.Lawful.leave (h : e.Lawful files root) : e.leave.Lawful files root :=
  ⟨h.files_eq, h.root_eq, h.exports_ok, h.cache_ok, h.calls_ok⟩

theorem Engine.Lawful.log (h : e.Lawful files root) {c : Call} (hc : c.Allowed files root) :
    (e.log c).Lawful files root := by
  refine ⟨h.files_eq, h.root_eq, h.exports_ok, h.cache_ok, fun c' hm => ?_⟩
  rcases List.mem_append.mp hm with hm | hm
  · exact h.calls_ok c' hm
  · rwa [List.mem_singleton.mp hm]

theorem lookupExports_spec (h : e.Lawful files root) (pkg : String) :
    (e.lookupExports pkg).2.Lawful files root ∧
      (e.lookupExports pkg).2.callerPkg = e.callerPkg ∧
      ∀ l, (e.lookupExports pkg).1 = .ok l → manifestExports files root pkg = .ok l := by
  unfold Engine.lookupExports
  split
  next l hl =>
    refine ⟨h, rfl, ?_⟩
    rintro _ ⟨⟩
    exact h.exports_ok pkg l hl
  · rw [h.files_eq, h.root_eq]
    split
    · refine ⟨h, rfl, ?_⟩
      rintro _ ⟨⟩
    next l hl =>
      refine ⟨⟨rfl, rfl, fun pkg' l' hl' => ?_, h.cache_ok, h.calls_ok⟩, rfl, ?_⟩
      · rw [List.lookup_cons] at hl'
        split at hl'
        next hp =>
          cases hl'
          rw [eq_of_beq hp]
          exact hl
        · exact h.exports_ok pkg' l' hl'
      · rintro _ ⟨⟩
        exact hl

theorem resolve_spec (h : e.Lawful files root) (name : String) :
    (e.resolve name).2.Lawful files root ∧ (e.resolve name).2.callerPkg = e.callerPkg ∧
      ∀ pkg svc, (e.resolve name).1 = .ok (pkg, svc) →
        validName pkg = true ∧ (e.callerPkg = pkg ∨ Exported files root pkg svc) := by
  -- a resolved service is the caller's own or exported
  unfold Engine.resolve
  rcases e.target name with ⟨pkg, svc⟩
  dsimp only
  split
  · refine ⟨h, rfl, ?_⟩
    rintro _ _ ⟨⟩
  next hv =>
    simp only [Bool.or_eq_true, Bool.not_eq_true', not_or, Bool.not_eq_false] at hv
    split
    next hp =>
      refine ⟨h, rfl, ?_⟩
      rintro _ _ ⟨⟩
      exact ⟨hv.1, .inl hp.symm⟩
    · obtain ⟨hl, hc, he⟩ := lookupExports_spec h pkg
      rcases hx : e.lookupExports pkg with ⟨_ | l, e'⟩
      · rw [hx] at hl hc
        refine ⟨hl, hc, ?_⟩
        rintro _ _ ⟨⟩
      · rw [hx] at hl hc he
        dsimp only
        split
        next hs =>
          refine ⟨hl, hc, ?_⟩
          rintro _ _ ⟨⟩
          exact ⟨hv.1, .inr ⟨l, he l rfl, by simpa using hs⟩⟩
        · refine ⟨hl, hc, ?_⟩
          rintro _ _ ⟨⟩

theorem serviceStmts_spec (h : e.Lawful files root) {pkg : String} (hv : validName pkg = true)
    (svc : String) :
    (e.serviceStmts pkg svc).2.Lawful files root ∧
      (e.serviceStmts pkg svc).2.callerPkg = e.callerPkg ∧
      ∀ body, (e.serviceStmts pkg svc).1 = .ok body →
        ∃ prog, serviceProgram files root pkg svc = .ok prog ∧ prog.stmts = body := by
  unfold Engine.serviceStmts
  dsimp only
  split
  next prog hc =>
    refine ⟨h, rfl, ?_⟩
    rintro _ ⟨⟩
    obtain ⟨pkg', svc', hv', hk, hp⟩ := h.cache_ok _ prog hc
    obtain ⟨rfl, rfl⟩ := serviceKey_inj hv hv' hk
    exact ⟨prog, hp, rfl⟩
  · rw [h.files_eq, h.root_eq]
    split
    · refine ⟨h, rfl, ?_⟩
      rintro _ ⟨⟩
    next prog hp =>
      refine ⟨⟨rfl, rfl, h.exports_ok, fun key prog' hc => ?_, h.calls_ok⟩, rfl, ?_⟩
      · rw [List.lookup_cons] at hc
        split at hc
        next hk =>
          cases hc
          exact ⟨pkg, svc, hv, eq_of_beq hk, hp⟩
        · exact h.cache_ok key prog' hc
      · rintro _ ⟨⟩
        exact ⟨prog, hp, rfl⟩

def InPackage (files : String → Option String) (root : String) (owner : Owner) (e : Engine) :
    Prop := e.Lawful files root ∧ e.callerPkg = owner.pkg

/-- What a failure leaves: a panic unwinds past the code that switches the package back. -/
def AfterFault (files : String → Option String) (root : String) (owner : Owner) (f : Fault)
    (e : Engine) : Prop := e.Lawful files root ∧ (f ≠ .panic → e.callerPkg = owner.pkg)

theorem InPackage.afterFault {owner : Owner} (h : InPackage files root owner e) (f : Fault) :
    AfterFault files root owner f e := ⟨h.1, fun _ => h.2⟩

def OwnerRuns (files : String → Option String) (root : String) (owner : Owner)
    (s : Ctx × Engine) : Prop := s.1.owner = owner ∧ InPackage files root owner s.2

theorem execClosed_ownerRuns (owner : Owner) :
    ExecClosed (Fallible.Maintains (OwnerRuns files root owner)
      fun f s => AfterFault files root owner f s.2) where
  closed := Fallible.closed_maintains fun f _ h => h.2.afterFault f
  noteGet _ := .modify fun _ h => ⟨h.1,
    ⟨h.2.1.files_eq, h.2.1.root_eq, h.2.1.exports_ok, h.2.1.cache_ok, h.2.1.calls_ok⟩, h.2.2⟩
  setVars _ := .modify fun _ h => h
  setResponse _ := .modify fun _ h => h

def ServiceLawful (files : String → Option String) (root : String) (svc : Service) : Prop :=
  ∀ owner name args,
    Fallible.Maintains (InPackage files root owner) (AfterFault files root owner)
      (svc owner name args)

theorem invokeBy_ownerRuns {svc : Service} (h : ServiceLawful files root svc) (owner : Owner)
    (name : String) (args : Map) :
    Fallible.Maintains (OwnerRuns files root owner) (fun f s => AfterFault files root owner f s.2)
      (invokeBy svc name args) := by
  rintro ⟨ctx, e⟩ ⟨rfl, he⟩
  unfold invokeBy
  rcases hr : svc ctx.owner name args e with ⟨_ | ⟨out, emits⟩, e'⟩
  · exact (h ctx.owner name args).error he hr
  · exact ⟨rfl, (h ctx.owner name args).ok he hr⟩

theorem execBlock_ownerRuns {svc : Service} (h : ServiceLawful files root svc) (owner : Owner)
    (ss : List Stmt) :
    Fallible.Maintains (OwnerRuns files root owner) (fun f s => AfterFault files root owner f s.2)
      (execBlock (invokeBy svc) ss) :=
  execBlock_closed (execClosed_ownerRuns owner) ss fun _ =>
    ⟨invokeBy_ownerRuns h owner, fun _ _ _ => .modify fun _ hs => hs⟩

theorem runBody_lawful {svc : Service} (h : ServiceLawful files root svc) {owner : Owner}
    {pkg name : String} {body : List Stmt} {args : Map}
    (hc : (Call.execute owner pkg name body).Allowed files root) :
    Fallible.Maintains (InPackage files root owner) (AfterFault files root owner)
      (runBody (invokeBy svc) owner pkg name body args) := by
  intro e he
  have hb := execBlock_ownerRuns h (.service pkg name) body
  have hs : OwnerRuns files root (.service pkg name)
      (⟨args.insert "event" (.object args), [], none, .service pkg name⟩,
        (e.log (.execute owner pkg name body)).enter pkg) :=
    ⟨rfl, (he.1.log hc).enter pkg, rfl⟩
  unfold runBody
  dsimp only
  rcases hr : execBlock (invokeBy svc) body (_, (e.log (.execute owner pkg name body)).enter pkg)
    with ⟨_ | _, ctx, e'⟩
  case error f =>
    have hf := hb.error hs hr
    cases f with
    | panic => exact ⟨hf.1, fun hp => absurd rfl hp⟩
    | err _ => exact ⟨(hf.1.enter e.callerPkg).leave, fun _ => he.2⟩
    | outOfFuel => exact ⟨(hf.1.enter e.callerPkg).leave, fun _ => he.2⟩
  case ok => exact ⟨((hb.ok hs hr).2.1.enter e.callerPkg).leave, he.2⟩

theorem runService_lawful (fuel : Nat) : ServiceLawful files root (runService fuel) := by
  induction fuel with
  | zero => exact fun owner _ _ e he => he.afterFault _
  | succ fuel ih =>
    intro owner name args e he
    have hcall : (Call.resolve owner name).Allowed files root := trivial
    unfold runService
    by_cases hd : maxDepth ≤ e.depth
    · rw [if_pos hd]
      exact he.afterFault _
    · rw [if_neg hd]
      obtain ⟨hl, hc, hx⟩ := resolve_spec (he.1.log hcall) name
      rcases hr : (e.log (.resolve owner name)).resolve name with ⟨f | ⟨pkg, svc⟩, e₁⟩
      · rw [hr] at hl hc
        exact ⟨hl, fun _ => hc.trans he.2⟩
      · rw [hr] at hl hc hx
        obtain ⟨hv, hright⟩ := hx pkg svc rfl
        obtain ⟨hl₂, hc₂, hbody⟩ := serviceStmts_spec hl.descend hv svc
        dsimp only
        rcases hst : e₁.descend.serviceStmts pkg svc with ⟨f | body, e₂⟩
        · rw [hst] at hl₂ hc₂
          have hback : e₂.callerPkg = owner.pkg := hc₂.trans (hc.trans he.2)
          cases f with
          | panic => exact ⟨hl₂, fun hp => absurd rfl hp⟩
          | err _ => exact ⟨hl₂.leave, fun _ => hback⟩
          | outOfFuel => exact ⟨hl₂.leave, fun _ => hback⟩
        · rw [hst] at hl₂ hc₂ hbody
          have hback : e₂.callerPkg = owner.pkg := hc₂.trans (hc.trans he.2)
          have hright : owner.pkg = pkg ∨ Exported files root pkg svc :=
            hright.imp_left he.2.symm.trans
          exact runBody_lawful ih ⟨hbody body rfl, hright⟩ e₂ ⟨hl₂, hback⟩

/-- An engine over fixed files that was made for package `pkg` and has performed
any number of runs, its caches cleared at will; one that panicked is dropped. -/
inductive Engine.Used (files : String → Option String) (root pkg : String) (secrets : SecretStore) :
    Engine → Prop
  | fresh : Used files root pkg secrets (.withSecrets files root pkg secrets)
  | ran {eng : Engine} (p : Program) (event : Value) : Used files root pkg secrets eng →
      (run p event eng).1 ≠ .error .panic → Used files root pkg secrets (run p event eng).2
  | invalidated {eng : Engine} :
      Used files root pkg secrets eng → Used files root pkg secrets eng.invalidate

theorem run_lawful {pkg : String} (he : InPackage files root (.program pkg) e) (p : Program)
    (event : Value) :
    (run p event e).2.Lawful files root ∧
      ((run p event e).1 ≠ .error .panic → (run p event e).2.callerPkg = pkg) := by
  have hsvc : ServiceLawful files root (runService (maxDepth + 1)) := runService_lawful _
  have hb := execBlock_ownerRuns hsvc (.program pkg) p.stmts
  have hs : OwnerRuns files root (.program pkg) (startCtx event e.callerPkg, e) := by
    refine ⟨?_, he⟩
    rw [show e.callerPkg = pkg from he.2]
    rfl
  unfold run invoke
  rcases hr : execBlock (invokeBy (runService (maxDepth + 1))) p.stmts
    (startCtx event e.callerPkg, e) with ⟨f | _, ctx, e'⟩
  · obtain ⟨hl, hp⟩ := hb.error hs hr
    exact ⟨hl, fun hf => hp fun h => hf (by rw [h])⟩
  · exact ⟨(hb.ok hs hr).2.1, fun _ => (hb.ok hs hr).2.2⟩

theorem Engine.Used.inPackage {pkg : String} {secrets : SecretStore}
    (h : e.Used files root pkg secrets) : InPackage files root (.program pkg) e := by
  induction h with
  | fresh =>
    refine ⟨⟨rfl, rfl, ?_, ?_, ?_⟩, rfl⟩
    · rintro _ _ ⟨⟩
    · rintro _ _ ⟨⟩
    · rintro _ ⟨⟩
  | ran p event _ hp ih =>
    obtain ⟨hl, hc⟩ := run_lawful ih p event
    exact ⟨hl, hc hp⟩
  | invalidated _ ih =>
    refine ⟨⟨ih.1.files_eq, ih.1.root_eq, ?_, ?_, ih.1.calls_ok⟩, ih.2⟩
    · rintro _ _ ⟨⟩
    · rintro _ _ ⟨⟩

/-- In every run, on an engine of any history, the body of `pkg:svc` is the one in its
file and runs for code of another package only if the manifest of `pkg` exports it. -/
theorem package_privacy {pkg : String} {secrets : SecretStore} (h : e.Used files root pkg secrets)
    (p : Program) (event : Value) (by_ : Owner) (target svc : String) (body : List Stmt)
    (hc : .execute by_ target svc body ∈ (run p event e).2.calls) :
    (∃ prog, serviceProgram files root target svc = .ok prog ∧ prog.stmts = body) ∧
      (by_.pkg = target ∨ Exported files root target svc) :=
  (run_lawful h.inPackage p event).1.calls_ok _ hc

end

def pingFiles (path : String) : Option String :=
  if path = "/p/packages/ops/package.vjs" then some "EXPORTS = [\"ping\"]"
  else if path = "/p/packages/ops/services/ping.vjs" then some ""
  else none

def pingFlow : Program where
  source := none
  tool := none
  api := none
  driver := none
  stmts := [.invokeMerge "ops:ping" []]
  surface := []
  emitSubjects := []
  invokes := ["ops:ping"]
  secretRefs := []

def Call.isExecute : Call → Bool
  | .resolve _ _ => false
  | .execute _ _ _ _ => true

theorem package_privacy_pingFlow :
    ∃ by_ target svc body, Call.execute by_ target svc body ∈
        (@run ascii pingFlow .null (.withSecrets pingFiles "/p" "default" .error)).2.calls ∧
      (∃ prog, @serviceProgram ascii pingFiles "/p" target svc = .ok prog ∧ prog.stmts = body) ∧
      (by_.pkg = target ∨ @Exported ascii pingFiles "/p" target svc) := by
  have hany : (@run ascii pingFlow .null
      (.withSecrets pingFiles "/p" "default" .error)).2.calls.any Call.isExecute = true := by
    decide +kernel
  obtain ⟨c, hc, hx⟩ := List.any_eq_true.mp hany
  cases c with
  | resolve => cases hx
  | execute by_ target svc body =>
    exact ⟨by_, target, svc, body, hc,
      @package_privacy ascii pingFiles "/p" _ "default" .error (@Engine.Used.fresh ascii _ _ _ _)
        pingFlow .null by_ target svc body hc⟩

end Vejas.Vjs
