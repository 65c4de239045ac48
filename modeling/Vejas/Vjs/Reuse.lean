import Vejas.Vjs.Induction

/-! A run leaves the engine as it found it. However it ends, the depth and the package are where they
were, and no result depends on what the engine has recorded: an engine that has run any number of
messages does what a fresh one with its caches does. -/

namespace Vejas.Vjs
open Json Rust Run

namespace Engine

def fixed (e : Engine) : String × String × SecretStore × Nat × (String → Option String) :=
  (e.projectRoot, e.callerPkg, e.secrets, e.depth, e.files)

def silent (e : Engine) : Engine := { e with calls := [], gets := [] }

def primed (files : String → Option String) (root pkg : String) (secrets : SecretStore)
    (cache : List (String × Program)) (exports : List (String × List String)) : Engine :=
  { withSecrets files root pkg secrets with cache, exports }

theorem fixed_of_silent {e e' : Engine} (h : e.silent = e'.silent) : e.fixed = e'.fixed := by
  have hsame := congrArg fixed h
  exact hsame

theorem silent_eq_primed {e : Engine} {files : String → Option String} {root pkg : String} {secrets : SecretStore}
    (h : e.fixed = (root, pkg, secrets, 0, files)) :
    e.silent = (primed files root pkg secrets e.cache e.exports).silent := by
  simp only [fixed, Prod.mk.injEq] at h
  obtain ⟨rfl, rfl, rfl, hdepth, rfl⟩ := h
  unfold silent primed withSecrets
  rw [hdepth]

theorem fixed_back {e e' : Engine} {pkg : String} (h : e'.fixed = (e.enter pkg).fixed) :
    (e'.enter e.callerPkg).leave.fixed = e.leave.fixed := by
  simp only [fixed, enter, leave, Prod.mk.injEq] at h ⊢
  obtain ⟨hroot, -, hsecrets, hdepth, hfiles⟩ := h
  exact ⟨hroot, trivial, hsecrets, by rw [hdepth], hfiles⟩

theorem fixed_descend_leave (e : Engine) : e.descend.leave.fixed = e.fixed := rfl

theorem fixed_leave {e e' : Engine} (h : e'.fixed = e.fixed) : e'.leave.fixed = e.leave.fixed := by
  simp only [fixed, leave, Prod.mk.injEq] at h ⊢
  exact ⟨h.1, h.2.1, h.2.2.1, by rw [h.2.2.2.1], h.2.2.2.2⟩

section
variable [External]

theorem resolve_fixed (e : Engine) (name : String) : (e.resolve name).2.fixed = e.fixed := by
  have hsame := congrArg fixed (resolve_invalidate e name)
  exact hsame

theorem serviceStmts_fixed (e : Engine) (pkg svc : String) : (e.serviceStmts pkg svc).2.fixed = e.fixed := by
  have hsame := congrArg fixed (serviceStmts_invalidate e pkg svc)
  exact hsame

theorem lookupExports_silent (e : Engine) (pkg : String) :
    e.silent.lookupExports pkg = ((e.lookupExports pkg).1, (e.lookupExports pkg).2.silent) := by
  cases hx : e.exports.lookup pkg with
  | some l =>
    have hx' : e.silent.exports.lookup pkg = some l := hx
    simp only [lookupExports, hx, hx']
  | none =>
    have hx' : e.silent.exports.lookup pkg = none := hx
    cases hm : manifestExports e.files e.projectRoot pkg with
    | error f =>
      have hm' : manifestExports e.silent.files e.silent.projectRoot pkg = .error f := hm
      simp only [lookupExports, hx, hx', hm, hm']
    | ok l =>
      have hm' : manifestExports e.silent.files e.silent.projectRoot pkg = .ok l := hm
      simp only [lookupExports, hx, hx', hm, hm']
      rfl

theorem resolve_silent (e : Engine) (name : String) :
    e.silent.resolve name = ((e.resolve name).1, (e.resolve name).2.silent) := by
  unfold resolve
  rw [show e.silent.target name = e.target name from rfl, show e.silent.callerPkg = e.callerPkg from rfl]
  rcases e.target name with ⟨pkg, svc⟩
  dsimp only
  split
  · rfl
  · split
    · rfl
    · rw [lookupExports_silent]
      rcases e.lookupExports pkg with ⟨f | l, e'⟩
      · rfl
      · dsimp only
        split
        · rfl
        · rfl

theorem serviceStmts_silent (e : Engine) (pkg svc : String) :
    e.silent.serviceStmts pkg svc = ((e.serviceStmts pkg svc).1, (e.serviceStmts pkg svc).2.silent) := by
  cases hx : e.cache.lookup (pkg ++ ":" ++ svc) with
  | some prog =>
    have hx' : e.silent.cache.lookup (pkg ++ ":" ++ svc) = some prog := hx
    simp only [serviceStmts, hx, hx']
  | none =>
    have hx' : e.silent.cache.lookup (pkg ++ ":" ++ svc) = none := hx
    cases hm : serviceProgram e.files e.projectRoot pkg svc with
    | error f =>
      have hm' : serviceProgram e.silent.files e.silent.projectRoot pkg svc = .error f := hm
      simp only [serviceStmts, hx, hx', hm, hm']
    | ok prog =>
      have hm' : serviceProgram e.silent.files e.silent.projectRoot pkg svc = .ok prog := hm
      simp only [serviceStmts, hx, hx', hm, hm']
      rfl

end

end Engine

section
variable [External]

/-- Whatever a service does but panic, the engine is back where it was. -/
def Restores (svc : Service) : Prop := ∀ owner name args x,
  Fallible.Maintains (fun e : Engine => e.fixed = x) (fun f e => f ≠ .panic → e.fixed = x) (svc owner name args)

omit [External] in
theorem execClosed_restores (x : String × String × SecretStore × Nat × (String → Option String)) :
    ExecClosed (Fallible.Maintains (fun s : Ctx × Engine => s.2.fixed = x) fun f s => f ≠ .panic → s.2.fixed = x) where
  closed := Fallible.closed_maintains fun _ _ h _ => h
  noteGet _ := .modify fun _ h => h
  setVars _ := .modify fun _ h => h
  setResponse _ := .modify fun _ h => h

theorem execBlock_restores {svc : Service} (h : Restores svc) (ss : List Stmt)
    (x : String × String × SecretStore × Nat × (String → Option String)) :
    Fallible.Maintains (fun s : Ctx × Engine => s.2.fixed = x) (fun f s => f ≠ .panic → s.2.fixed = x)
      (execBlock (invokeBy svc) ss) := by
  refine execBlock_closed (execClosed_restores x) ss fun _ => ⟨fun name args => ?_, fun _ _ _ => .modify fun _ h => h⟩
  rintro ⟨ctx, e⟩ he
  unfold invokeBy
  rcases hr : svc ctx.owner name args e with ⟨f | ⟨out, emits⟩, e'⟩
  · exact (h ctx.owner name args x).error he hr
  · exact (h ctx.owner name args x).ok he hr

theorem runBody_restores {svc : Service} (h : Restores svc) {owner : Owner} {pkg name : String} {body : List Stmt}
    {args : Map} {e e' : Engine} {r : Except Fault (Value × List Emit)}
    (hrun : runBody (invokeBy svc) owner pkg name body args e = (r, e')) (hp : r ≠ .error .panic) :
    e'.fixed = e.leave.fixed := by
  have hb := execBlock_restores h body (e.enter pkg).fixed
  have hs : ((e.log (.execute owner pkg name body)).enter pkg).fixed = (e.enter pkg).fixed := rfl
  unfold runBody at hrun
  dsimp only at hrun
  rcases hr : execBlock (invokeBy svc) body
      (⟨args.insert "event" (.object args), [], none, .service pkg name⟩,
        (e.log (.execute owner pkg name body)).enter pkg) with ⟨f | _, ctx, e₁⟩
  · rw [hr] at hrun
    have hf := hb.error hs hr
    cases f with
    | panic =>
      cases hrun
      exact absurd rfl hp
    | err _ =>
      cases hrun
      exact Engine.fixed_back (hf nofun)
    | outOfFuel =>
      cases hrun
      exact Engine.fixed_back (hf nofun)
  · rw [hr] at hrun
    cases hrun
    exact Engine.fixed_back (hb.ok hs hr)

theorem runService_restores (fuel : Nat) : Restores (runService fuel) := by
  induction fuel with
  | zero => exact fun _ _ _ _ _ he _ => he
  | succ fuel ih =>
    rintro owner name args x e rfl
    unfold runService
    by_cases hd : maxDepth ≤ e.depth
    · rw [if_pos hd]
      exact fun _ => rfl
    rw [if_neg hd]
    have hres := Engine.resolve_fixed (e.log (.resolve owner name)) name
    rcases hx : (e.log (.resolve owner name)).resolve name with ⟨f | ⟨pkg, svc⟩, e₁⟩
    · rw [hx] at hres
      exact fun _ => hres
    rw [hx] at hres
    dsimp only
    have hload := Engine.serviceStmts_fixed e₁.descend pkg svc
    have hback : ∀ {e₂ : Engine}, e₂.fixed = e₁.descend.fixed → e₂.leave.fixed = e.fixed := by
      intro e₂ h
      exact (Engine.fixed_leave h).trans ((Engine.fixed_descend_leave e₁).trans hres)
    rcases hst : e₁.descend.serviceStmts pkg svc with ⟨f | body, e₂⟩
    · rw [hst] at hload
      cases f with
      | panic => exact fun hp => absurd rfl hp
      | err _ => exact fun _ => hback hload
      | outOfFuel => exact fun _ => hback hload
    · rw [hst] at hload
      dsimp only
      rcases hrun : runBody (invokeBy (runService fuel)) owner pkg svc body args e₂ with ⟨f | r, e₃⟩
      · exact fun hp => (runBody_restores ih hrun fun h => hp (Except.error.inj h)).trans (hback hload)
      · exact (runBody_restores ih hrun nofun).trans (hback hload)

theorem run_restores {prog : Program} {event : Value} {e : Engine} (h : (run prog event e).1 ≠ .error .panic) :
    (run prog event e).2.fixed = e.fixed := by
  have hb := execBlock_restores (runService_restores (maxDepth + 1)) prog.stmts e.fixed
  unfold run invoke at h ⊢
  rcases hr : execBlock (invokeBy (runService (maxDepth + 1))) prog.stmts (startCtx event e.callerPkg, e) with
    ⟨f | _, ctx, e'⟩
  · rw [hr] at h
    exact hb.error rfl hr fun hf => h (by rw [hf])
  · exact hb.ok rfl hr

def quiet (s : Ctx × Engine) : Ctx × Engine := (s.1, s.2.silent)

/-- From states that differ in the records, the same result and states that differ in the records. -/
def Blind {α : Type} (m m' : Run α) : Prop :=
  ∀ s t, quiet s = quiet t → (m s).1 = (m' t).1 ∧ quiet (m s).2 = quiet (m' t).2

omit [External] in
theorem Blind.bind {α β : Type} {m m' : Run α} {f f' : α → Run β} (h : Blind m m') (hf : ∀ a, Blind (f a) (f' a)) :
    Blind (m >>= f) (m' >>= f') := by
  intro s t hst
  obtain ⟨hr, hs⟩ := h s t hst
  rcases hm : m s with ⟨e | a, s'⟩
  · rcases hm' : m' t with ⟨e' | a', t'⟩
    · rw [hm, hm'] at hr hs
      cases hr
      rw [Fallible.bind_error hm, Fallible.bind_error hm']
      exact ⟨rfl, hs⟩
    · rw [hm, hm'] at hr
      cases hr
  · rcases hm' : m' t with ⟨e' | a', t'⟩
    · rw [hm, hm'] at hr
      cases hr
    · rw [hm, hm'] at hr hs
      cases hr
      rw [Fallible.bind_ok hm, Fallible.bind_ok hm']
      exact hf a s' t' hs

omit [External] in
theorem blind_modify {f : Ctx × Engine → Ctx × Engine} (h : ∀ s t, quiet s = quiet t → quiet (f s) = quiet (f t)) :
    Blind (Fallible.modify f : Run Unit) (Fallible.modify f) := fun s t hst => ⟨rfl, h s t hst⟩

omit [External] in
theorem blind_reads {α : Type} {f : Ctx × Engine → Except Fault α} (h : ∀ s t, quiet s = quiet t → f s = f t) :
    Blind (Fallible.reads f) (Fallible.reads f) := fun s t hst => ⟨h s t hst, hst⟩

omit [External] in
theorem blind_pipeline (f : Ctx → Ctx) : Blind (Fallible.modify fun s => (f s.1, s.2) : Run Unit)
    (Fallible.modify fun s => (f s.1, s.2)) := by
  refine blind_modify fun s t hst => ?_
  obtain ⟨hctx, heng⟩ := Prod.mk.inj hst
  exact Prod.ext (congrArg f hctx) heng

omit [External] in
theorem blind_coupled : Coupled Blind where
  bind := Blind.bind
  lift _ _ := blind_reads fun _ _ _ => rfl
  vars := blind_reads fun s t hst => by
    obtain ⟨hctx, -⟩ := Prod.mk.inj hst
    rw [hctx]
  secret reference := by
    refine Blind.bind (blind_modify fun s t hst => ?_) fun _ => blind_reads fun s t hst => ?_
    · exact hst
    · have hfixed := Engine.fixed_of_silent (Prod.mk.inj hst).2
      simp only [Engine.fixed, Prod.mk.injEq] at hfixed
      rw [hfixed.2.2.1]
  setVars f := blind_pipeline fun c => { c with vars := f c.vars }
  pushEmit m := blind_pipeline fun c => { c with emits := c.emits ++ [m] }
  setResponse r := blind_pipeline fun c => { c with response := some r }

def BlindService (svc : Service) : Prop := ∀ owner name args (e e' : Engine), e.silent = e'.silent →
  (svc owner name args e).1 = (svc owner name args e').1 ∧
    (svc owner name args e).2.silent = (svc owner name args e').2.silent

omit [External] in
theorem blind_invokeBy {svc : Service} (h : BlindService svc) (name : String) (args : Map) :
    Blind (invokeBy svc name args) (invokeBy svc name args) := by
  rintro ⟨c, e⟩ ⟨c', e'⟩ hst
  obtain ⟨rfl, heng⟩ := Prod.mk.inj hst
  obtain ⟨hr, hs⟩ := h c.owner name args e e' heng
  unfold invokeBy
  dsimp only
  rcases hx : svc c.owner name args e with ⟨f | ⟨out, emits⟩, e₁⟩
  · rcases hx' : svc c.owner name args e' with ⟨f' | ⟨out', emits'⟩, e₁'⟩
    · rw [hx, hx'] at hr hs
      cases hr
      exact ⟨rfl, Prod.ext rfl hs⟩
    · rw [hx, hx'] at hr
      cases hr
  · rcases hx' : svc c.owner name args e' with ⟨f' | ⟨out', emits'⟩, e₁'⟩
    · rw [hx, hx'] at hr
      cases hr
    · rw [hx, hx'] at hr hs
      cases hr
      exact ⟨rfl, Prod.ext rfl hs⟩

theorem blind_runBody {svc : Service} (h : BlindService svc) (owner : Owner) (pkg name : String) (body : List Stmt)
    (args : Map) {e e' : Engine} (he : e.silent = e'.silent) :
    (runBody (invokeBy svc) owner pkg name body args e).1 = (runBody (invokeBy svc) owner pkg name body args e').1 ∧
      (runBody (invokeBy svc) owner pkg name body args e).2.silent =
        (runBody (invokeBy svc) owner pkg name body args e').2.silent := by
  have hpkg : e.callerPkg = e'.callerPkg := (Prod.mk.inj (Prod.mk.inj (Engine.fixed_of_silent he)).2).1
  have hin : ((e.log (.execute owner pkg name body)).enter pkg).silent =
      ((e'.log (.execute owner pkg name body)).enter pkg).silent := congrArg (·.enter pkg) he
  obtain ⟨hr, hs⟩ := execBlock_coupled blind_coupled (blind_invokeBy h) body
    (⟨args.insert "event" (.object args), [], none, .service pkg name⟩,
      (e.log (.execute owner pkg name body)).enter pkg)
    (⟨args.insert "event" (.object args), [], none, .service pkg name⟩,
      (e'.log (.execute owner pkg name body)).enter pkg) (Prod.ext rfl hin)
  unfold runBody
  dsimp only
  rcases hx : execBlock (invokeBy svc) body
      (⟨args.insert "event" (.object args), [], none, .service pkg name⟩,
        (e.log (.execute owner pkg name body)).enter pkg) with ⟨r, c, e₁⟩
  rcases hx' : execBlock (invokeBy svc) body
      (⟨args.insert "event" (.object args), [], none, .service pkg name⟩,
        (e'.log (.execute owner pkg name body)).enter pkg) with ⟨r', c', e₁'⟩
  rw [hx, hx'] at hr hs
  obtain ⟨rfl, heng⟩ := Prod.mk.inj hs
  dsimp only at hr
  subst hr
  have hback : ((e₁.enter e.callerPkg).leave).silent = ((e₁'.enter e'.callerPkg).leave).silent := by
    rw [hpkg]
    exact congrArg (fun x : Engine => (x.enter e'.callerPkg).leave) heng
  cases r with
  | ok u => exact ⟨rfl, hback⟩
  | error f =>
    cases f with
    | panic => exact ⟨rfl, heng⟩
    | err _ => exact ⟨rfl, hback⟩
    | outOfFuel => exact ⟨rfl, hback⟩

theorem runService_blind (fuel : Nat) : BlindService (runService fuel) := by
  induction fuel with
  | zero => exact fun _ _ _ _ _ he => ⟨rfl, he⟩
  | succ fuel ih =>
    intro owner name args e e' he
    have hfixed := Engine.fixed_of_silent he
    simp only [Engine.fixed, Prod.mk.injEq] at hfixed
    have hdepth : e.depth = e'.depth := hfixed.2.2.2.1
    unfold runService
    rw [hdepth]
    by_cases hd : maxDepth ≤ e'.depth
    · rw [if_pos hd, if_pos hd]
      exact ⟨rfl, he⟩
    rw [if_neg hd, if_neg hd]
    have hlog : (e.log (.resolve owner name)).silent = (e'.log (.resolve owner name)).silent := he
    have hres := Engine.resolve_silent (e.log (.resolve owner name)) name
    have hres' := Engine.resolve_silent (e'.log (.resolve owner name)) name
    rw [hlog, hres'] at hres
    rcases hx : (e.log (.resolve owner name)).resolve name with ⟨r, e₁⟩
    rcases hx' : (e'.log (.resolve owner name)).resolve name with ⟨r', e₁'⟩
    rw [hx, hx'] at hres
    obtain ⟨hr, he₁⟩ := Prod.mk.inj hres
    dsimp only at hr he₁
    subst hr
    rcases r' with f | ⟨pkg, svc⟩
    · exact ⟨rfl, he₁.symm⟩
    dsimp only
    have hdown : e₁.descend.silent = e₁'.descend.silent := congrArg (·.descend) he₁.symm
    have hload := Engine.serviceStmts_silent e₁.descend pkg svc
    have hload' := Engine.serviceStmts_silent e₁'.descend pkg svc
    rw [hdown, hload'] at hload
    rcases hst : e₁.descend.serviceStmts pkg svc with ⟨r, e₂⟩
    rcases hst' : e₁'.descend.serviceStmts pkg svc with ⟨r', e₂'⟩
    rw [hst, hst'] at hload
    obtain ⟨hr, he₂⟩ := Prod.mk.inj hload
    dsimp only at hr he₂
    subst hr
    cases r' with
    | ok body => exact blind_runBody ih owner pkg svc body args he₂.symm
    | error f =>
      cases f with
      | panic => exact ⟨rfl, he₂.symm⟩
      | err _ => exact ⟨rfl, congrArg (·.leave) he₂.symm⟩
      | outOfFuel => exact ⟨rfl, congrArg (·.leave) he₂.symm⟩

theorem run_blind (prog : Program) (event : Value) {e e' : Engine} (he : e.silent = e'.silent) :
    (run prog event e).1 = (run prog event e').1 := by
  have hpkg : e.callerPkg = e'.callerPkg := (Prod.mk.inj (Prod.mk.inj (Engine.fixed_of_silent he)).2).1
  obtain ⟨hr, hs⟩ := execBlock_coupled blind_coupled (blind_invokeBy (runService_blind (maxDepth + 1))) prog.stmts
    (startCtx event e.callerPkg, e) (startCtx event e'.callerPkg, e') (Prod.ext (by rw [hpkg]; rfl) he)
  unfold run invoke
  rcases hx : execBlock (invokeBy (runService (maxDepth + 1))) prog.stmts (startCtx event e.callerPkg, e) with ⟨r, c, e₁⟩
  rcases hx' : execBlock (invokeBy (runService (maxDepth + 1))) prog.stmts (startCtx event e'.callerPkg, e') with
    ⟨r', c', e₁'⟩
  rw [hx, hx'] at hr hs
  obtain ⟨rfl, -⟩ := Prod.mk.inj hs
  dsimp only at hr
  subst hr
  cases r with
  | ok u => rfl
  | error f => rfl

/-- An engine made for the package `pkg` and used for any number of messages, each with the files of
its moment; the caches are cleared at will, and a panic ends the engine. -/
inductive Engine.Serves (root pkg : String) (secrets : SecretStore) : Engine → Prop
  | live (files : String → Option String) : Serves root pkg secrets (.withSecrets files root pkg secrets)
  | ran {e : Engine} (files : String → Option String) (prog : Program) (event : Value) : Serves root pkg secrets e →
      (run prog event { e with files }).1 ≠ .error .panic → Serves root pkg secrets (run prog event { e with files }).2
  | invalidated {e : Engine} : Serves root pkg secrets e → Serves root pkg secrets e.invalidate

theorem Engine.Serves.fixed {root pkg : String} {secrets : SecretStore} {e : Engine} (h : e.Serves root pkg secrets) :
    e.fixed = (root, pkg, secrets, 0, e.files) := by
  induction h with
  | live files => rfl
  | @ran e files prog event _ hp ih =>
    have hback := run_restores hp
    simp only [Engine.fixed, Prod.mk.injEq] at ih hback ⊢
    obtain ⟨hroot, hpkg, hsecrets, hdepth, -⟩ := hback
    exact ⟨hroot.trans ih.1, hpkg.trans ih.2.1, hsecrets.trans ih.2.2.1, hdepth.trans ih.2.2.2.1, trivial⟩
  | invalidated _ ih => exact ih

/-- After a run that returned, with a result or an error, the depth and the package are as before it;
and on an engine with any history of such runs a message ends as it does on a fresh engine that has
its caches. -/
theorem run_leaves_engine_as_found :
    (∀ (prog : Program) (event : Value) (e : Engine), (run prog event e).1 ≠ .error .panic →
      (run prog event e).2.depth = e.depth ∧ (run prog event e).2.callerPkg = e.callerPkg) ∧
    ∀ (root pkg : String) (secrets : SecretStore) (e : Engine), e.Serves root pkg secrets →
      ∀ (files : String → Option String) (prog : Program) (event : Value),
        (run prog event { e with files }).1 =
          (run prog event (.primed files root pkg secrets e.cache e.exports)).1 := by
  refine ⟨fun prog event e hp => ?_, fun root pkg secrets e he files prog event => ?_⟩
  · have hback := run_restores hp
    simp only [Engine.fixed, Prod.mk.injEq] at hback
    exact ⟨hback.2.2.2.1, hback.2.1⟩
  · have hfixed := he.fixed
    refine run_blind prog event ?_
    refine Engine.silent_eq_primed (e := { e with files }) ?_
    simp only [Engine.fixed, Prod.mk.injEq] at hfixed ⊢
    exact ⟨hfixed.1, hfixed.2.1, hfixed.2.2.1, hfixed.2.2.2.1, trivial⟩

end

def strayFlow : Program where
  source := none
  tool := none
  api := none
  driver := none
  stmts := [.invokeMerge "gone" []]
  surface := []
  emitSubjects := []
  invokes := ["gone"]
  secretRefs := []

def straying : Engine := .withSecrets (fun _ => none) "/p" "default" .error

theorem run_leaves_engine_as_found_strayFlow :
    (∃ msg, (@run ascii strayFlow .null straying).1 = .error (.err msg)) ∧
      (@run ascii strayFlow .null straying).2.depth = 0 ∧
      (@run ascii strayFlow .null straying).2.callerPkg = "default" ∧
      (@run ascii strayFlow .null { (@run ascii strayFlow .null straying).2 with files := fun _ => some "" }).1 =
        (@run ascii strayFlow .null (.primed (fun _ => some "") "/p" "default" .error [] [])).1 := by
  obtain ⟨msg, hmsg⟩ : ∃ msg, (@run ascii strayFlow .null straying).1 = .error (.err msg) := ⟨_, rfl⟩
  have hp : (@run ascii strayFlow .null straying).1 ≠ .error .panic := by
    rw [hmsg]
    nofun
  obtain ⟨hdepth, hpkg⟩ := (@run_leaves_engine_as_found ascii).1 strayFlow .null straying hp
  have hserves := @Engine.Serves.ran ascii "/p" "default" .error _ (fun _ => none) strayFlow .null
    (@Engine.Serves.live ascii _ _ _ fun _ => none) hp
  exact ⟨⟨msg, hmsg⟩, hdepth, hpkg,
    (@run_leaves_engine_as_found ascii).2 _ _ _ _ hserves (fun _ => some "") strayFlow .null⟩

end Vejas.Vjs
