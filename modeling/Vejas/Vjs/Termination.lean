import Vejas.Vjs.Fuel
import Vejas.Vjs.Induction
import Vejas.Vjs.Order

/-! Every run ends. What an invoke does at one depth depends on invokes one level deeper only, and
at the limit on none, so the recursion through services is never more than the limit deep; below
it, expressions and blocks recurse on their syntax. -/

namespace Vejas.Vjs
open Json Rust Run

section
variable [External]

def serviceStep (rec : Service) : Service := fun owner name args eng =>
  if maxDepth ≤ eng.depth then (.error (.err ("invoke depth exceeded at " ++ name)), eng)
  else
    match (eng.log (.resolve owner name)).resolve name with
    | (.error f, eng) => (.error f, eng)
    | (.ok (pkg, svc), eng) =>
      match eng.descend.serviceStmts pkg svc with
      | (.error .panic, eng) => (.error .panic, eng)
      | (.error f, eng) => (.error f, eng.leave)
      | (.ok stmts, eng) => runBody (invokeBy rec) owner pkg svc stmts args eng

theorem runService_succ (fuel : Nat) : runService (fuel + 1) = serviceStep (runService fuel) := by
  funext owner name args eng
  unfold runService serviceStep
  rfl

/-- Services that may nest `n` deep; in place of a body under more invokes, `beyond` runs. -/
def nest (beyond : Service) : Nat → Service
  | 0 => fun owner name args eng =>
    if maxDepth ≤ eng.depth then (.error (.err ("invoke depth exceeded at " ++ name)), eng)
    else beyond owner name args eng
  | n + 1 => serviceStep (nest beyond n)

def runWith (svc : Service) (prog : Program) (event : Value) : Fallible Fault Engine Ctx := fun eng =>
  match execBlock (invokeBy svc) prog.stmts (startCtx event eng.callerPkg, eng) with
  | (.ok (), (ctx, eng)) => (.ok ctx, eng)
  | (.error f, (_, eng)) => (.error f, eng)

theorem run_eq_runWith : run = runWith (runService (maxDepth + 1)) := rfl

end

def Alike (d : Nat) {α : Type} (m m' : Run α) : Prop :=
  ∀ s, s.2.depth = d → m s = m' s ∧
    match m s with
    | (.ok _, s') => s'.2.depth = d
    | (.error f, _) => f ≠ .outOfFuel

section
variable {d : Nat} {α β : Type}

theorem Alike.bind {m m' : Run α} {f f' : α → Run β} (h : Alike d m m')
    (hf : ∀ a, Alike d (f a) (f' a)) : Alike d (m >>= f) (m' >>= f') := by
  intro s hs
  obtain ⟨heq, hend⟩ := h s hs
  rw [Fallible.bind_run, Fallible.bind_run, ← heq]
  cases hm : m s with
  | mk r s' =>
    rw [hm] at hend
    cases r with
    | error e => exact ⟨rfl, hend⟩
    | ok a => exact hf a s' hend

theorem alike_reads {f : State → Except Fault α} (h : ∀ s, f s ≠ .error .outOfFuel) :
    Alike d (Fallible.reads f) (Fallible.reads f) := by
  intro s hs
  refine ⟨rfl, ?_⟩
  rw [Fallible.reads_run]
  cases hr : f s with
  | ok a => exact hs
  | error e =>
    rintro rfl
    exact h s hr

theorem alike_modify {f : State → State} (h : ∀ s, (f s).2.depth = s.2.depth) :
    Alike d (Fallible.modify f : Run Unit) (Fallible.modify f) :=
  fun s hs => ⟨rfl, (h s).trans hs⟩

theorem alike_coupled : Coupled (Alike d) where
  bind := Alike.bind
  lift r hr := alike_reads fun _ => hr
  vars := alike_reads fun _ => nofun
  secret reference := by
    refine Alike.bind (alike_modify fun _ => rfl) fun _ => alike_reads fun s => ?_
    cases s.2.secrets reference with
    | ok v => nofun
    | error e => nofun
  setVars _ := alike_modify fun _ => rfl
  pushEmit _ := alike_modify fun _ => rfl
  setResponse _ := alike_modify fun _ => rfl

variable [External]

omit [External] in
theorem within_ne {f : Fault} (pre : String) (h : f ≠ .outOfFuel) : f.within pre ≠ .outOfFuel := by
  cases f with
  | err e => exact nofun
  | panic => exact nofun
  | outOfFuel => exact absurd rfl h

theorem manifestExports_ne (files : String → Option String) (root pkg : String) :
    manifestExports files root pkg ≠ .error .outOfFuel := by
  unfold manifestExports
  split
  · exact nofun
  next src hsrc =>
    split
    next f hf =>
      intro h
      exact within_ne _ (fun hf' => parse_ne_outOfFuel src (hf' ▸ hf)) (Except.error.inj h)
    · exact nofun

theorem serviceProgram_ne (files : String → Option String) (root pkg svc : String) :
    serviceProgram files root pkg svc ≠ .error .outOfFuel := by
  unfold serviceProgram
  dsimp only
  split
  · exact nofun
  next src hsrc =>
    split
    next f hf =>
      intro h
      exact within_ne _ (fun hf' => parse_ne_outOfFuel src (hf' ▸ hf)) (Except.error.inj h)
    · exact nofun

theorem lookupExports_ends (e : Engine) (pkg : String) :
    (e.lookupExports pkg).2.depth = e.depth ∧ (e.lookupExports pkg).1 ≠ .error .outOfFuel := by
  unfold Engine.lookupExports
  split
  · exact ⟨rfl, nofun⟩
  · have hne := manifestExports_ne e.files e.projectRoot pkg
    split
    next f hf =>
      rw [hf] at hne
      exact ⟨rfl, hne⟩
    · exact ⟨rfl, nofun⟩

theorem resolve_ends (e : Engine) (name : String) :
    (e.resolve name).2.depth = e.depth ∧ (e.resolve name).1 ≠ .error .outOfFuel := by
  unfold Engine.resolve
  rcases e.target name with ⟨pkg, svc⟩
  dsimp only
  split
  · exact ⟨rfl, nofun⟩
  · split
    · exact ⟨rfl, nofun⟩
    · obtain ⟨hdepth, hne⟩ := lookupExports_ends e pkg
      rcases hx : e.lookupExports pkg with ⟨_ | l, e'⟩
      · rw [hx] at hdepth hne
        exact ⟨hdepth, fun h => hne (congrArg Except.error (Except.error.inj h))⟩
      · rw [hx] at hdepth
        dsimp only
        split
        · exact ⟨hdepth, nofun⟩
        · exact ⟨hdepth, nofun⟩

theorem serviceStmts_ends (e : Engine) (pkg svc : String) :
    (e.serviceStmts pkg svc).2.depth = e.depth ∧
      (e.serviceStmts pkg svc).1 ≠ .error .outOfFuel := by
  unfold Engine.serviceStmts
  dsimp only
  split
  · exact ⟨rfl, nofun⟩
  · have hne := serviceProgram_ne e.files e.projectRoot pkg svc
    split
    next f hf =>
      rw [hf] at hne
      exact ⟨rfl, fun h => hne (congrArg Except.error (Except.error.inj h))⟩
    · exact ⟨rfl, nofun⟩

/-- On engines at depth `d` or deeper, `svc` and `svc'` do the same, do not run out of fuel, and
come back to the depth they were called at. -/
def Agrees (d : Nat) (svc svc' : Service) : Prop :=
  ∀ owner name args eng, d ≤ eng.depth → svc owner name args eng = svc' owner name args eng ∧
    match svc owner name args eng with
    | (.ok _, eng') => eng'.depth = eng.depth
    | (.error f, _) => f ≠ .outOfFuel

omit [External] in
theorem Agrees.alike {svc svc' : Service} (h : Agrees d svc svc') {depth : Nat} (hd : d ≤ depth)
    (name : String) (args : Map) :
    Alike depth (invokeBy svc name args) (invokeBy svc' name args) := by
  intro s hs
  obtain ⟨heq, hend⟩ := h s.1.owner name args s.2 (hs ▸ hd)
  unfold invokeBy
  rw [← heq]
  refine ⟨rfl, ?_⟩
  cases hrun : svc s.1.owner name args s.2 with
  | mk r eng =>
    rw [hrun] at hend
    cases r with
    | ok r => exact hend.trans hs
    | error f => exact hend

theorem runBody_agrees {svc svc' : Service} (h : Agrees d svc svc') (eng : Engine)
    (hd : d ≤ eng.depth) (owner : Owner) (pkg name : String) (body : List Stmt) (args : Map) :
    runBody (invokeBy svc) owner pkg name body args eng =
        runBody (invokeBy svc') owner pkg name body args eng ∧
      match runBody (invokeBy svc) owner pkg name body args eng with
      | (.ok _, eng') => eng'.depth = eng.depth - 1
      | (.error f, _) => f ≠ .outOfFuel := by
  obtain ⟨heq, hend⟩ := execBlock_coupled alike_coupled (h.alike hd) body
    (serviceCtx pkg name args, (eng.log (.execute owner pkg name body)).enter pkg) rfl
  unfold serviceCtx at heq hend
  unfold runBody
  dsimp only
  rw [← heq]
  refine ⟨rfl, ?_⟩
  cases hrun : execBlock (invokeBy svc) body
      (⟨args.insert "event" (.object args), [], none, .service pkg name⟩,
        (eng.log (.execute owner pkg name body)).enter pkg) with
  | mk r s =>
    rw [hrun] at hend
    cases r with
    | ok u => exact congrArg (· - 1) hend
    | error f =>
      cases f with
      | err msg => exact nofun
      | panic => exact nofun
      | outOfFuel => exact absurd rfl hend

theorem Agrees.step {svc svc' : Service} (h : Agrees (d + 1) svc svc') :
    Agrees d (serviceStep svc) (serviceStep svc') := by
  intro owner name args eng hd
  unfold serviceStep
  split
  · exact ⟨rfl, nofun⟩
  · obtain ⟨hdepth, hne⟩ := resolve_ends (eng.log (.resolve owner name)) name
    rcases hres : (eng.log (.resolve owner name)).resolve name with ⟨f | ⟨pkg, service⟩, e₁⟩
    · rw [hres] at hne
      exact ⟨rfl, fun hf => hne (congrArg _ hf)⟩
    · rw [hres] at hdepth
      dsimp only
      obtain ⟨hdepth', hne'⟩ := serviceStmts_ends e₁.descend pkg service
      have hlevel : e₁.descend.depth = eng.depth + 1 := congrArg (· + 1) hdepth
      rcases hstmts : e₁.descend.serviceStmts pkg service with ⟨f | body, e₂⟩
      · rw [hstmts] at hne'
        cases f with
        | err msg => exact ⟨rfl, nofun⟩
        | panic => exact ⟨rfl, nofun⟩
        | outOfFuel => exact absurd rfl hne'
      · rw [hstmts] at hdepth'
        have hbody : e₂.depth = eng.depth + 1 := hdepth'.trans hlevel
        have := runBody_agrees h e₂ (by omega) owner pkg service body args
        rw [hbody] at this
        exact this

theorem Agrees.all (svc svc' : Nat → Service) (hlimit : Agrees maxDepth (svc 0) (svc' 0))
    (h : ∀ n, svc (n + 1) = serviceStep (svc n)) (h' : ∀ n, svc' (n + 1) = serviceStep (svc' n)) :
    ∀ n, n ≤ maxDepth → Agrees (maxDepth - n) (svc n) (svc' n)
  | 0, _ => hlimit
  | n + 1, hn => by
    have ih := Agrees.all svc svc' hlimit h h' n (by omega)
    rw [h n, h' n]
    refine Agrees.step ?_
    rwa [show maxDepth - (n + 1) + 1 = maxDepth - n by omega]

theorem agrees_refused (svc svc' : Service) :
    Agrees maxDepth (serviceStep svc) (serviceStep svc') := by
  intro owner name args eng hd
  unfold serviceStep
  rw [if_pos hd, if_pos hd]
  exact ⟨rfl, nofun⟩

theorem agrees_nest (beyond : Service) :
    Agrees 0 (runService (maxDepth + 1)) (nest beyond maxDepth) := by
  refine Agrees.all (fun n => runService (n + 1)) (nest beyond) ?_
    (fun n => runService_succ _) (fun n => rfl) maxDepth (Nat.le_refl _)
  intro owner name args eng hd
  rw [runService_succ]
  unfold serviceStep nest
  rw [if_pos hd, if_pos hd]
  exact ⟨rfl, nofun⟩

theorem agrees_solution {svc : Service} (h : svc = serviceStep svc) :
    Agrees 0 (runService (maxDepth + 1)) svc := by
  refine Agrees.all (fun n => runService (n + 1)) (fun _ => svc) ?_
    (fun n => runService_succ _) (fun _ => h) maxDepth (Nat.le_refl _)
  rw [runService_succ, h]
  exact agrees_refused _ _

theorem runService_solves :
    runService (maxDepth + 1) = serviceStep (runService (maxDepth + 1)) := by
  have hall := Agrees.all (fun n => runService (n + 1)) (fun n => runService (n + 2))
    (agrees_refused _ _) (fun n => runService_succ _) (fun n => runService_succ _) maxDepth
    (Nat.le_refl _)
  funext owner name args eng
  exact (hall owner name args eng (Nat.zero_le _)).1

theorem runWith_eq {svc : Service} (h : Agrees 0 (runService (maxDepth + 1)) svc) (prog : Program)
    (event : Value) (eng : Engine) :
    run prog event eng = runWith svc prog event eng := by
  obtain ⟨heq, -⟩ := execBlock_coupled alike_coupled (h.alike (Nat.zero_le eng.depth)) prog.stmts
    (startCtx event eng.callerPkg, eng) rfl
  rw [run_eq_runWith]
  unfold runWith
  rw [heq]

theorem run_ne_outOfFuel (prog : Program) (event : Value) (eng : Engine) :
    (run prog event eng).1 ≠ .error .outOfFuel := by
  have hservice := agrees_solution runService_solves
  obtain ⟨-, hend⟩ := execBlock_coupled alike_coupled (hservice.alike (Nat.zero_le eng.depth)) prog.stmts
    (startCtx event eng.callerPkg, eng) rfl
  rw [run_eq_runWith]
  unfold runWith
  cases hrun : execBlock (invokeBy (runService (maxDepth + 1))) prog.stmts
      (startCtx event eng.callerPkg, eng) with
  | mk r s =>
    rw [hrun] at hend
    cases r with
    | ok u => exact nofun
    | error f => exact fun h => hend (Except.error.inj h)

/-- Every run ends. It comes to a result without running out of fuel; its services solve the
recursion of `run_service`, and no other solution gives another run, because an invoke depends on
invokes one level deeper only; nothing depends on what a body under more than `maxDepth` invokes
would do; and a loop is over the items its expression had before the body first ran. -/
theorem run_ends (prog : Program) (event : Value) (eng : Engine) :
    (run prog event eng).1 ≠ .error .outOfFuel ∧
    runService (maxDepth + 1) = serviceStep (runService (maxDepth + 1)) ∧
    (∀ svc, svc = serviceStep svc → run prog event eng = runWith svc prog event eng) ∧
    (∀ d svc svc', Agrees (d + 1) svc svc' → Agrees d (serviceStep svc) (serviceStep svc')) ∧
    (∀ beyond, run prog event eng = runWith (nest beyond maxDepth) prog event eng) ∧
    ∀ inv x iter body s v s₁, eval inv iter s = (.ok v, s₁) →
      execStmt inv (.loop x iter body) s =
        forItems x (execBlock inv body) (v.asArray.getD []) s₁ := by
  refine ⟨run_ne_outOfFuel prog event eng, runService_solves, ?_, ?_, ?_, ?_⟩
  · intro svc h
    exact runWith_eq (agrees_solution h) prog event eng
  · intro d svc svc' h
    exact h.step
  · intro beyond
    exact runWith_eq (agrees_nest beyond) prog event eng
  · intro inv x iter body s v s₁ h
    exact Fallible.bind_ok h

end

end Vejas.Vjs
