import Vejas.Bus.Link
import Vejas.Vjs.Eval

/-! What a run does, in order: the big steps of expressions, statements and services, each with
the acts it performs. An expression can only call services; the emits of a run are those of its
acts. -/

namespace Vejas.Vjs
open Json Rust Run Bus

mutual

/-- Something a statement does that shows in the emits. -/
inductive Act
  | emit (m : Emit)
  | call (c : Served)

inductive Served
  | mk (name : String) (acts : List Act)

end

mutual

def Act.emits : Act → List Emit
  | .emit m => [m]
  | .call c => c.emits

def Served.emits : Served → List Emit
  | .mk _ acts => emitsOf acts

def emitsOf : List Act → List Emit
  | [] => []
  | a :: acts => a.emits ++ emitsOf acts

end

abbrev State := Ctx × Engine

namespace State

def setVars (s : State) (f : Map → Map) : State := ({ s.1 with vars := f s.1.vars }, s.2)

def unshadow (saved : Map) (fields : Map) (vars : Map) : Map :=
  fields.foldl (fun vs p =>
    match saved.get? p.1 with
    | some v => vs.insert p.1 v
    | none => vs.remove p.1) vars

def pushEmit (s : State) (m : Emit) : State := ({ s.1 with emits := s.1.emits ++ [m] }, s.2)

def setResponse (s : State) (r : Value × Value) : State := ({ s.1 with response := some r }, s.2)

end State

def serviceCtx (pkg svc : String) (args : Map) : Ctx :=
  ⟨args.insert "event" (.object args), [], none, .service pkg svc⟩

def Steps (calls : List Served) : List Act := calls.map .call

section
variable [External]

mutual

/-- `e` evaluates from `s` to a value and a state, calling these services in this order. -/
inductive Evals : Expr → State → Value → State → List Served → Prop
  | lit {v s} : Evals (.lit v) s v s []
  | var {x s} : Evals (.var x) s ((s.1.vars.get? x).getD .null) s []
  | fString {ps s t s' l} : EvalsParts ps s t s' l → Evals (.fString ps) s (.string t) s' l
  | doc {fs s m s' l} : EvalsFields [] fs s m s' l → Evals (.doc fs) s (.object m) s' l
  | array {es s vs s' l} : EvalsList es s vs s' l → Evals (.array es) s (.array vs) s' l
  | invoke {name args s m s₁ out s' l c} : EvalsFields [] args s m s₁ l →
      Serves name m s₁ out s' c → Evals (.invoke name args) s out s' (l ++ [c])
  | field {b f safe s v r s' l} : Evals b s v s' l → readField v f safe = .ok r →
      Evals (.field b f safe) s r s' l
  | index {b k s v w s₁ s' l₁ l₂} : Evals b s v s₁ l₁ → Evals k s₁ w s' l₂ →
      Evals (.index b k) s (readIndex v w) s' (l₁ ++ l₂)
  | projection {b s v s' l} : Evals b s v s' l → Evals (.projection b) s v s' l
  | filter {b c s items s₁ kept s' l₁ l₂} : Evals b s (.array items) s₁ l₁ →
      Filters c items s₁ kept s' l₂ → Evals (.filter b c) s (.array kept) s' (l₁ ++ l₂)
  | filterOther {b c s v s' l} : Evals b s v s' l → v.asArray = none →
      Evals (.filter b c) s (.array []) s' l
  | call {name args s vs s₁ r s' l} : EvalsList args s vs s₁ l →
      callBuiltin name vs s₁ = (.ok r, s') → Evals (.call name args) s r s' l
  | unary {op e s v s' l} : Evals e s v s' l → Evals (.unary op e) s (unary op v) s' l
  | both {op l r s v w s₁ s' l₁ l₂} : op ≠ .and → op ≠ .or → op ≠ .coalesce → Evals l s v s₁ l₁ →
      Evals r s₁ w s' l₂ → Evals (.bin op l r) s (binary op v w) s' (l₁ ++ l₂)
  | leftOnly {op l r s v s' l₁} : (op = .and ∧ truthy v = false) ∨ (op = .or ∧ truthy v = true) ∨
      (op = .coalesce ∧ v.isNull = false) → Evals l s v s' l₁ → Evals (.bin op l r) s v s' l₁
  | rightToo {op l r s v w s₁ s' l₁ l₂} : (op = .and ∧ truthy v = true) ∨
      (op = .or ∧ truthy v = false) ∨ (op = .coalesce ∧ v.isNull = true) → Evals l s v s₁ l₁ →
      Evals r s₁ w s' l₂ → Evals (.bin op l r) s w s' (l₁ ++ l₂)

inductive EvalsParts : List FStringPart → State → String → State → List Served → Prop
  | nil {s} : EvalsParts [] s "" s []
  | lit {t ps s u s' l} : EvalsParts ps s u s' l → EvalsParts (.lit t :: ps) s (t ++ u) s' l
  | expr {e ps s v s₁ u s' l₁ l₂} : Evals e s v s₁ l₁ → EvalsParts ps s₁ u s' l₂ →
      EvalsParts (.expr e :: ps) s (toDisplay v ++ u) s' (l₁ ++ l₂)

inductive EvalsFields : Map → List (String × Expr) → State → Map → State → List Served → Prop
  | nil {m s} : EvalsFields m [] s m s []
  | cons {m k e fs s v s₁ m' s' l₁ l₂} : Evals e s v s₁ l₁ →
      EvalsFields (m.insert k v) fs s₁ m' s' l₂ → EvalsFields m ((k, e) :: fs) s m' s' (l₁ ++ l₂)

inductive EvalsList : List Expr → State → List Value → State → List Served → Prop
  | nil {s} : EvalsList [] s [] s []
  | cons {e es s v s₁ vs s' l₁ l₂} : Evals e s v s₁ l₁ → EvalsList es s₁ vs s' l₂ →
      EvalsList (e :: es) s (v :: vs) s' (l₁ ++ l₂)

inductive Filters : Expr → List Value → State → List Value → State → List Served → Prop
  | nil {c s} : Filters c [] s [] s []
  | cons {c item items s v s₁ kept s' l₁ l₂} :
      Evals c (s.setVars (Map.extend (item.asObject.getD []))) v s₁ l₁ →
      Filters c items (s₁.setVars (State.unshadow s.1.vars (item.asObject.getD []))) kept s' l₂ →
      Filters c (item :: items) s (if truthy v then item :: kept else kept) s' (l₁ ++ l₂)

inductive Serves : String → Map → State → Value → State → Served → Prop
  | run {name args s pkg svc e₁ stmts e₂ done acts} : s.2.depth < maxDepth →
      (s.2.log (.resolve s.1.owner name)).resolve name = (.ok (pkg, svc), e₁) →
      e₁.descend.serviceStmts pkg svc = (.ok stmts, e₂) →
      Executes stmts
        (serviceCtx pkg svc args, (e₂.log (.execute s.1.owner pkg svc stmts)).enter pkg) done acts →
      Serves name args s (.object (done.1.vars.remove "event"))
        ({ s.1 with emits := s.1.emits ++ done.1.emits }, (done.2.enter e₂.callerPkg).leave)
        (.mk name acts)

inductive Performs : Stmt → State → State → List Act → Prop
  | assign {path e s v s₁ s' l} : Evals e s v s₁ l → assign path v s₁ = (.ok (), s') →
      Performs (.assign path e) s s' (Steps l)
  | invokeMerge {name args s m s₁ out s₂ l c} : EvalsFields [] args s m s₁ l →
      Serves name m s₁ out s₂ c → Performs (.invokeMerge name args) s
        (s₂.setVars (Map.extend (out.asObject.getD []))) (Steps (l ++ [c]))
  | ite {arms otherwise s s' acts} : Chooses arms otherwise s s' acts →
      Performs (.ite arms otherwise) s s' acts
  | loop {x iter body s v s₁ s' l acts} : Evals iter s v s₁ l →
      Loops x body (v.asArray.getD []) s₁ s' acts →
      Performs (.loop x iter body) s s' (Steps l ++ acts)
  | emit {subject payload s t s₁ v s₂ l₁ l₂} : Evals subject s (.string t) s₁ l₁ →
      validSubject t = true → Evals payload s₁ v s₂ l₂ →
      Performs (.emit subject payload) s (s₂.pushEmit (t, v)) (Steps (l₁ ++ l₂) ++ [.emit (t, v)])
  | respond {status body s v s₁ w s₂ l₁ l₂} : Evals status s v s₁ l₁ → Evals body s₁ w s₂ l₂ →
      Performs (.respond status body) s (s₂.setResponse (v, w)) (Steps (l₁ ++ l₂))

inductive Chooses : List (Expr × Span × List Stmt) → Option (List Stmt) → State → State → List Act →
    Prop
  | none {s} : Chooses [] none s s []
  | otherwise {body s s' acts} : Executes body s s' acts → Chooses [] (some body) s s' acts
  | this {c span body arms o s v s₁ s' l acts} : Evals c s v s₁ l → truthy v = true →
      Executes body s₁ s' acts → Chooses ((c, span, body) :: arms) o s s' (Steps l ++ acts)
  | next {c span body arms o s v s₁ s' l acts} : Evals c s v s₁ l → truthy v = false →
      Chooses arms o s₁ s' acts → Chooses ((c, span, body) :: arms) o s s' (Steps l ++ acts)

inductive Loops : String → List Stmt → List Value → State → State → List Act → Prop
  | nil {x body s} : Loops x body [] s s []
  | cons {x body item items s s₁ s' acts₁ acts₂} :
      Executes body (s.setVars (Map.insert x item)) s₁ acts₁ → Loops x body items s₁ s' acts₂ →
      Loops x body (item :: items) s s' (acts₁ ++ acts₂)

inductive Executes : List Stmt → State → State → List Act → Prop
  | nil {s} : Executes [] s s []
  | cons {t ts s s₁ s' acts₁ acts₂} : Performs t s s₁ acts₁ → Executes ts s₁ s' acts₂ →
      Executes (t :: ts) s s' (acts₁ ++ acts₂)

end

def Calls (inv : Invoke) : Prop :=
  ∀ ⦃name args s out s'⦄, inv name args s = (.ok out, s') → ∃ c, Serves name args s out s' c

variable {inv : Invoke}

theorem filters_of_run {c : Expr}
    (h : ∀ {s v s'}, eval inv c s = (.ok v, s') → ∃ l, Evals c s v s' l) {items : List Value}
    {s s' : State} {kept : List Value}
    (hrun : filterItems (eval inv c) items s = (.ok kept, s')) : ∃ l, Filters c items s kept s' l := by
  induction items generalizing s kept with
  | nil =>
    cases hrun
    exact ⟨_, .nil⟩
  | cons item items ih =>
    obtain ⟨v, s₁, hshadow, hrun⟩ := Fallible.of_bind_ok hrun
    obtain ⟨out, s₂, hrest, hrun⟩ := Fallible.of_bind_ok hrun
    cases hrun
    obtain ⟨saved, s₃, hsaved, hshadow⟩ := Fallible.of_bind_ok hshadow
    cases hsaved
    obtain ⟨_, s₄, hset, hshadow⟩ := Fallible.of_bind_ok hshadow
    cases hset
    obtain ⟨w, s₅, hcond, hshadow⟩ := Fallible.of_bind_ok hshadow
    cases hshadow
    obtain ⟨l₁, hc⟩ := h hcond
    obtain ⟨l₂, hf⟩ := ih hrest
    exact ⟨_, .cons hc hf⟩

mutual

theorem evals_of_run (h : Calls inv) : ∀ {e : Expr} {s s' : State} {v : Value},
    eval inv e s = (.ok v, s') → ∃ l, Evals e s v s' l
  | .lit v, s, s', w, hrun => by
    cases hrun
    exact ⟨_, .lit⟩
  | .var x, s, s', w, hrun => by
    cases hrun
    exact ⟨_, .var⟩
  | .fString ps, s, s', w, hrun => by
    obtain ⟨t, s₁, hparts, hrun⟩ := Fallible.of_bind_ok hrun
    cases hrun
    obtain ⟨l, hl⟩ := evalsParts_of_run h hparts
    exact ⟨_, .fString hl⟩
  | .doc fs, s, s', w, hrun => by
    obtain ⟨m, s₁, hfields, hrun⟩ := Fallible.of_bind_ok hrun
    cases hrun
    obtain ⟨l, hl⟩ := evalsFields_of_run h hfields
    exact ⟨_, .doc hl⟩
  | .array es, s, s', w, hrun => by
    obtain ⟨vs, s₁, hitems, hrun⟩ := Fallible.of_bind_ok hrun
    cases hrun
    obtain ⟨l, hl⟩ := evalsList_of_run h hitems
    exact ⟨_, .array hl⟩
  | .invoke name args, s, s', w, hrun => by
    obtain ⟨m, s₁, hargs, hrun⟩ := Fallible.of_bind_ok hrun
    obtain ⟨l, hl⟩ := evalsFields_of_run h hargs
    obtain ⟨c, hc⟩ := h hrun
    exact ⟨_, .invoke hl hc⟩
  | .field b f safe, s, s', w, hrun => by
    obtain ⟨v, s₁, hbase, hrun⟩ := Fallible.of_bind_ok hrun
    obtain ⟨l, hl⟩ := evals_of_run h hbase
    obtain ⟨hread, rfl⟩ := Prod.mk.inj hrun
    exact ⟨_, .field hl hread⟩
  | .index b k, s, s', w, hrun => by
    obtain ⟨v, s₁, hbase, hrun⟩ := Fallible.of_bind_ok hrun
    obtain ⟨u, s₂, hkey, hrun⟩ := Fallible.of_bind_ok hrun
    cases hrun
    obtain ⟨l₁, hl₁⟩ := evals_of_run h hbase
    obtain ⟨l₂, hl₂⟩ := evals_of_run h hkey
    exact ⟨_, .index hl₁ hl₂⟩
  | .projection b, s, s', w, hrun => by
    obtain ⟨l, hl⟩ := evals_of_run h (e := b) hrun
    exact ⟨_, .projection hl⟩
  | .filter b c, s, s', w, hrun => by
    obtain ⟨v, s₁, hbase, hrun⟩ := Fallible.of_bind_ok hrun
    obtain ⟨l₁, hl₁⟩ := evals_of_run h hbase
    cases v with
    | array items =>
      obtain ⟨kept, s₂, hitems, hrun⟩ := Fallible.of_bind_ok hrun
      cases hrun
      obtain ⟨l₂, hl₂⟩ := filters_of_run (evals_of_run h (e := c)) hitems
      exact ⟨_, .filter hl₁ hl₂⟩
    | _ =>
      cases hrun
      exact ⟨_, .filterOther hl₁ rfl⟩
  | .call name args, s, s', w, hrun => by
    obtain ⟨vs, s₁, hargs, hrun⟩ := Fallible.of_bind_ok hrun
    obtain ⟨l, hl⟩ := evalsList_of_run h hargs
    exact ⟨_, .call hl hrun⟩
  | .unary op e, s, s', w, hrun => by
    obtain ⟨v, s₁, he, hrun⟩ := Fallible.of_bind_ok hrun
    cases hrun
    obtain ⟨l, hl⟩ := evals_of_run h he
    exact ⟨_, .unary hl⟩
  | .bin op a b, s, s', w, hrun => by
    cases op
    case and =>
      obtain ⟨v, s₁, hleft, hrun⟩ := Fallible.of_bind_ok hrun
      obtain ⟨l₁, hl₁⟩ := evals_of_run h hleft
      split at hrun
      next ht =>
        obtain ⟨l₂, hl₂⟩ := evals_of_run h hrun
        exact ⟨_, .rightToo (.inl ⟨rfl, ht⟩) hl₁ hl₂⟩
      next ht =>
        cases hrun
        exact ⟨_, .leftOnly (.inl ⟨rfl, Bool.not_eq_true _ ▸ ht⟩) hl₁⟩
    case or =>
      obtain ⟨v, s₁, hleft, hrun⟩ := Fallible.of_bind_ok hrun
      obtain ⟨l₁, hl₁⟩ := evals_of_run h hleft
      split at hrun
      next ht =>
        cases hrun
        exact ⟨_, .leftOnly (.inr (.inl ⟨rfl, ht⟩)) hl₁⟩
      next ht =>
        obtain ⟨l₂, hl₂⟩ := evals_of_run h hrun
        exact ⟨_, .rightToo (.inr (.inl ⟨rfl, Bool.not_eq_true _ ▸ ht⟩)) hl₁ hl₂⟩
    case coalesce =>
      obtain ⟨v, s₁, hleft, hrun⟩ := Fallible.of_bind_ok hrun
      obtain ⟨l₁, hl₁⟩ := evals_of_run h hleft
      split at hrun
      next ht =>
        obtain ⟨l₂, hl₂⟩ := evals_of_run h hrun
        exact ⟨_, .rightToo (.inr (.inr ⟨rfl, ht⟩)) hl₁ hl₂⟩
      next ht =>
        cases hrun
        exact ⟨_, .leftOnly (.inr (.inr ⟨rfl, Bool.not_eq_true _ ▸ ht⟩)) hl₁⟩
    all_goals
      obtain ⟨v, s₁, hleft, hrun⟩ := Fallible.of_bind_ok hrun
      obtain ⟨u, s₂, hright, hrun⟩ := Fallible.of_bind_ok hrun
      cases hrun
      obtain ⟨l₁, hl₁⟩ := evals_of_run h hleft
      obtain ⟨l₂, hl₂⟩ := evals_of_run h hright
      exact ⟨_, .both (by decide) (by decide) (by decide) hl₁ hl₂⟩

theorem evalsParts_of_run (h : Calls inv) : ∀ {ps : List FStringPart} {s s' : State} {t : String},
    evalParts inv ps s = (.ok t, s') → ∃ l, EvalsParts ps s t s' l
  | [], s, s', t, hrun => by
    cases hrun
    exact ⟨_, .nil⟩
  | .lit u :: ps, s, s', t, hrun => by
    obtain ⟨rest, s₁, hrest, hrun⟩ := Fallible.of_bind_ok hrun
    cases hrun
    obtain ⟨l, hl⟩ := evalsParts_of_run h hrest
    exact ⟨_, .lit hl⟩
  | .expr e :: ps, s, s', t, hrun => by
    obtain ⟨v, s₁, he, hrun⟩ := Fallible.of_bind_ok hrun
    obtain ⟨rest, s₂, hrest, hrun⟩ := Fallible.of_bind_ok hrun
    cases hrun
    obtain ⟨l₁, hl₁⟩ := evals_of_run h he
    obtain ⟨l₂, hl₂⟩ := evalsParts_of_run h hrest
    exact ⟨_, .expr hl₁ hl₂⟩

theorem evalsFields_of_run (h : Calls inv) :
    ∀ {fs : List (String × Expr)} {m m' : Map} {s s' : State},
    evalFields inv m fs s = (.ok m', s') → ∃ l, EvalsFields m fs s m' s' l
  | [], m, m', s, s', hrun => by
    cases hrun
    exact ⟨_, .nil⟩
  | (k, e) :: fs, m, m', s, s', hrun => by
    obtain ⟨v, s₁, he, hrun⟩ := Fallible.of_bind_ok hrun
    obtain ⟨l₁, hl₁⟩ := evals_of_run h he
    obtain ⟨l₂, hl₂⟩ := evalsFields_of_run h hrun
    exact ⟨_, .cons hl₁ hl₂⟩

theorem evalsList_of_run (h : Calls inv) : ∀ {es : List Expr} {vs : List Value} {s s' : State},
    evalList inv es s = (.ok vs, s') → ∃ l, EvalsList es s vs s' l
  | [], vs, s, s', hrun => by
    cases hrun
    exact ⟨_, .nil⟩
  | e :: es, vs, s, s', hrun => by
    obtain ⟨v, s₁, he, hrun⟩ := Fallible.of_bind_ok hrun
    obtain ⟨ws, s₂, hes, hrun⟩ := Fallible.of_bind_ok hrun
    cases hrun
    obtain ⟨l₁, hl₁⟩ := evals_of_run h he
    obtain ⟨l₂, hl₂⟩ := evalsList_of_run h hes
    exact ⟨_, .cons hl₁ hl₂⟩

end

theorem loops_of_run {x : String} {body : List Stmt}
    (h : ∀ {s s'}, execBlock inv body s = (.ok (), s') → ∃ acts, Executes body s s' acts)
    {items : List Value} {s s' : State}
    (hrun : forItems x (execBlock inv body) items s = (.ok (), s')) :
    ∃ acts, Loops x body items s s' acts := by
  induction items generalizing s with
  | nil =>
    cases hrun
    exact ⟨_, .nil⟩
  | cons item items ih =>
    obtain ⟨_, s₁, hset, hrun⟩ := Fallible.of_bind_ok hrun
    cases hset
    obtain ⟨_, s₂, hbody, hrun⟩ := Fallible.of_bind_ok hrun
    obtain ⟨acts₁, h₁⟩ := h hbody
    obtain ⟨acts₂, h₂⟩ := ih hrun
    exact ⟨_, .cons h₁ h₂⟩

theorem subjectOf_ok {v : Value} {t : String} {s s' : State} (h : subjectOf v s = (.ok t, s')) :
    v = .string t ∧ validSubject t = true ∧ s' = s := by
  unfold subjectOf at h
  split at h
  · split at h
    next hvalid =>
      cases h
      exact ⟨rfl, hvalid, rfl⟩
    · cases h
  · cases h

mutual

theorem performs_of_run (h : Calls inv) : ∀ {t : Stmt} {s s' : State},
    execStmt inv t s = (.ok (), s') → ∃ acts, Performs t s s' acts
  | .assign path e, s, s', hrun => by
    obtain ⟨v, s₁, he, hrun⟩ := Fallible.of_bind_ok hrun
    obtain ⟨l, hl⟩ := evals_of_run h he
    exact ⟨_, .assign hl hrun⟩
  | .invokeMerge name args, s, s', hrun => by
    obtain ⟨m, s₁, hargs, hrun⟩ := Fallible.of_bind_ok hrun
    obtain ⟨out, s₂, hinv, hrun⟩ := Fallible.of_bind_ok hrun
    cases hrun
    obtain ⟨l, hl⟩ := evalsFields_of_run h hargs
    obtain ⟨c, hc⟩ := h hinv
    exact ⟨_, .invokeMerge hl hc⟩
  | .ite arms otherwise, s, s', hrun => by
    obtain ⟨acts, ha⟩ := chooses_of_run h (otherwise_of_run h) hrun
    exact ⟨_, .ite ha⟩
  | .loop x iter body, s, s', hrun => by
    obtain ⟨v, s₁, hiter, hrun⟩ := Fallible.of_bind_ok hrun
    obtain ⟨l, hl⟩ := evals_of_run h hiter
    obtain ⟨acts, ha⟩ := loops_of_run (executes_of_run h) hrun
    exact ⟨_, .loop hl ha⟩
  | .emit subject payload, s, s', hrun => by
    obtain ⟨u, s₁, hsubject, hrest⟩ := Fallible.of_bind_ok hrun
    obtain ⟨t, s₂, htext, hrest'⟩ := Fallible.of_bind_ok hrest
    obtain ⟨rfl, hvalid, rfl⟩ := subjectOf_ok htext
    obtain ⟨v, s₃, hpayload, hpush⟩ := Fallible.of_bind_ok hrest'
    cases hpush
    obtain ⟨l₁, hl₁⟩ := evals_of_run h hsubject
    obtain ⟨l₂, hl₂⟩ := evals_of_run h hpayload
    exact ⟨_, .emit hl₁ hvalid hl₂⟩
  | .respond status body, s, s', hrun => by
    obtain ⟨v, s₁, hstatus, hrun⟩ := Fallible.of_bind_ok hrun
    obtain ⟨w, s₂, hbody, hrun⟩ := Fallible.of_bind_ok hrun
    cases hrun
    obtain ⟨l₁, hl₁⟩ := evals_of_run h hstatus
    obtain ⟨l₂, hl₂⟩ := evals_of_run h hbody
    exact ⟨_, .respond hl₁ hl₂⟩

theorem otherwise_of_run (h : Calls inv) : ∀ {otherwise : Option (List Stmt)} {s s' : State},
    execElse inv otherwise s = (.ok (), s') → ∃ acts, Chooses [] otherwise s s' acts
  | none, s, s', hrun => by
    cases hrun
    exact ⟨_, .none⟩
  | some body, s, s', hrun => by
    obtain ⟨acts, ha⟩ := executes_of_run h hrun
    exact ⟨_, .otherwise ha⟩

theorem chooses_of_run (h : Calls inv) {otherwise : Option (List Stmt)} {last : Run Unit}
    (ho : ∀ {s s'}, last s = (.ok (), s') → ∃ acts, Chooses [] otherwise s s' acts) :
    ∀ {arms : List (Expr × Span × List Stmt)} {s s' : State},
      execArms inv last arms s = (.ok (), s') → ∃ acts, Chooses arms otherwise s s' acts
  | [], s, s', hrun => ho hrun
  | (c, span, body) :: arms, s, s', hrun => by
    obtain ⟨v, s₁, hcond, hrun⟩ := Fallible.of_bind_ok hrun
    obtain ⟨l, hl⟩ := evals_of_run h hcond
    split at hrun
    next ht =>
      obtain ⟨acts, ha⟩ := executes_of_run h hrun
      exact ⟨_, .this hl ht ha⟩
    next ht =>
      obtain ⟨acts, ha⟩ := chooses_of_run h ho hrun
      exact ⟨_, .next hl (Bool.not_eq_true _ ▸ ht) ha⟩

theorem executes_of_run (h : Calls inv) : ∀ {ts : List Stmt} {s s' : State},
    execBlock inv ts s = (.ok (), s') → ∃ acts, Executes ts s s' acts
  | [], s, s', hrun => by
    cases hrun
    exact ⟨_, .nil⟩
  | t :: ts, s, s', hrun => by
    obtain ⟨_, s₁, ht, hrun⟩ := Fallible.of_bind_ok hrun
    obtain ⟨acts₁, h₁⟩ := performs_of_run h ht
    obtain ⟨acts₂, h₂⟩ := executes_of_run h hrun
    exact ⟨_, .cons h₁ h₂⟩

end

theorem calls_runService : ∀ fuel, Calls (invokeBy (runService fuel))
  | 0 => by
    intro name args s out s' hrun
    cases hrun
  | fuel + 1 => by
    intro name args s out s' hrun
    unfold invokeBy at hrun
    split at hrun
    next out' emits eng hsvc =>
      cases hrun
      unfold runService at hsvc
      split at hsvc
      · cases hsvc
      next hdepth =>
        split at hsvc
        · cases hsvc
        next pkg svc e₁ hres =>
          split at hsvc
          · cases hsvc
          · cases hsvc
          next stmts e₂ hstmts =>
            unfold runBody at hsvc
            dsimp only at hsvc
            split at hsvc
            · cases hsvc
            next r ctx e₃ hne hbody =>
              split at hsvc
              next hr =>
                cases hsvc
                obtain ⟨acts, ha⟩ := executes_of_run (calls_runService fuel) hbody
                exact ⟨_, .run (Nat.lt_of_not_le hdepth) hres hstmts ha⟩
              · cases hsvc
    · cases hrun

omit [External] in
theorem emitsOf_append (acts acts' : List Act) :
    emitsOf (acts ++ acts') = emitsOf acts ++ emitsOf acts' := by
  induction acts with
  | nil => rfl
  | cons a acts ih =>
    rw [List.cons_append, emitsOf, emitsOf, ih, List.append_assoc]

omit [External] in
theorem emitsOf_call (name : String) (acts : List Act) :
    emitsOf (Steps [.mk name acts]) = emitsOf acts := List.append_nil _

def Grows (s s' : State) (acts : List Act) : Prop :=
  s'.1.emits = s.1.emits ++ emitsOf acts ∧ ∀ m ∈ emitsOf acts, validSubject m.1 = true

omit [External] in
theorem Grows.refl (s : State) : Grows s s [] :=
  ⟨(List.append_nil _).symm, fun _ h => nomatch h⟩

omit [External] in
theorem Grows.trans {s s₁ s' : State} {acts acts' : List Act} (h : Grows s s₁ acts)
    (h' : Grows s₁ s' acts') : Grows s s' (acts ++ acts') := by
  unfold Grows
  rw [emitsOf_append, h'.1, h.1, List.append_assoc]
  refine ⟨rfl, fun m hm => ?_⟩
  rcases List.mem_append.mp hm with hm | hm
  · exact h.2 m hm
  · exact h'.2 m hm

omit [External] in
theorem Grows.calls {s s₁ s' : State} {l l' : List Served} (h : Grows s s₁ (Steps l))
    (h' : Grows s₁ s' (Steps l')) : Grows s s' (Steps (l ++ l')) := by
  unfold Steps
  rw [List.map_append]
  exact h.trans h'

theorem callBuiltin_ctx {name : String} {vs : List Value} {s s' : State} {r : Value}
    (h : callBuiltin name vs s = (.ok r, s')) : s'.1 = s.1 := by
  unfold callBuiltin at h
  split at h
  · cases hreference : vs.head?.bind Value.asStr with
    | none =>
      rw [hreference] at h
      cases h
    | some reference =>
      rw [hreference] at h
      obtain ⟨_, s₁, hnote, hread⟩ := Fallible.of_bind_ok h
      cases hnote
      obtain ⟨-, rfl⟩ := Prod.mk.inj hread
      rfl
  · obtain ⟨-, rfl⟩ := Prod.mk.inj h
    rfl

omit [External] in
theorem assign_emits {path : List String} {v : Value} {s s' : State}
    (h : assign path v s = (.ok (), s')) : s'.1.emits = s.1.emits := by
  unfold assign at h
  split at h
  · cases h
  · cases h
    rfl
  · cases h
    rfl

mutual

theorem Evals.grows : ∀ {e : Expr} {s s' : State} {v : Value} {l : List Served},
    Evals e s v s' l → Grows s s' (Steps l)
  | _, _, _, _, _, .lit => Grows.refl _
  | _, _, _, _, _, .var => Grows.refl _
  | _, _, _, _, _, .fString h => h.grows
  | _, _, _, _, _, .doc h => h.grows
  | _, _, _, _, _, .array h => h.grows
  | _, _, _, _, _, .invoke hargs hserves => hargs.grows.calls hserves.grows
  | _, _, _, _, _, .field h _ => h.grows
  | _, _, _, _, _, .index hb hk => hb.grows.calls hk.grows
  | _, _, _, _, _, .projection h => h.grows
  | _, _, _, _, _, .filter hb hc => hb.grows.calls hc.grows
  | _, _, _, _, _, .filterOther h _ => h.grows
  | _, _, _, _, _, .call hargs hcall => by
    have hgrows := hargs.grows
    unfold Grows at hgrows ⊢
    rwa [callBuiltin_ctx hcall]
  | _, _, _, _, _, .unary h => h.grows
  | _, _, _, _, _, .both _ _ _ hl hr => hl.grows.calls hr.grows
  | _, _, _, _, _, .leftOnly _ hl => hl.grows
  | _, _, _, _, _, .rightToo _ hl hr => hl.grows.calls hr.grows

theorem EvalsParts.grows : ∀ {ps : List FStringPart} {s s' : State} {t : String} {l : List Served},
    EvalsParts ps s t s' l → Grows s s' (Steps l)
  | _, _, _, _, _, .nil => Grows.refl _
  | _, _, _, _, _, .lit h => h.grows
  | _, _, _, _, _, .expr he hps => he.grows.calls hps.grows

theorem EvalsFields.grows : ∀ {m m' : Map} {fs : List (String × Expr)} {s s' : State}
    {l : List Served}, EvalsFields m fs s m' s' l → Grows s s' (Steps l)
  | _, _, _, _, _, _, .nil => Grows.refl _
  | _, _, _, _, _, _, .cons he hfs => he.grows.calls hfs.grows

theorem EvalsList.grows : ∀ {es : List Expr} {s s' : State} {vs : List Value} {l : List Served},
    EvalsList es s vs s' l → Grows s s' (Steps l)
  | _, _, _, _, _, .nil => Grows.refl _
  | _, _, _, _, _, .cons he hes => he.grows.calls hes.grows

theorem Filters.grows : ∀ {c : Expr} {items kept : List Value} {s s' : State} {l : List Served},
    Filters c items s kept s' l → Grows s s' (Steps l)
  | _, _, _, _, _, _, .nil => Grows.refl _
  | _, _, _, _, _, _, .cons hc hitems => Grows.calls hc.grows hitems.grows

theorem Serves.grows : ∀ {name : String} {args : Map} {s s' : State} {out : Value} {c : Served},
    Serves name args s out s' c → Grows s s' (Steps [c])
  | _, _, _, _, _, _, .run _ _ _ hbody => by
    -- the body started with no emits, so all of its emits are those of its acts
    obtain ⟨hemits, hvalid⟩ := hbody.grows
    unfold Grows
    rw [emitsOf_call]
    exact ⟨congrArg _ hemits, hvalid⟩

theorem Performs.grows : ∀ {t : Stmt} {s s' : State} {acts : List Act},
    Performs t s s' acts → Grows s s' acts
  | _, _, _, _, .assign he hassign => by
    have hgrows := he.grows
    unfold Grows at hgrows ⊢
    rwa [assign_emits hassign]
  | _, _, _, _, .invokeMerge hargs hserves => Grows.calls hargs.grows hserves.grows
  | _, _, _, _, .ite h => h.grows
  | _, _, _, _, .loop hiter hitems => hiter.grows.trans hitems.grows
  | _, _, _, _, .emit hsubject hvalid hpayload => by
    refine (Grows.calls hsubject.grows hpayload.grows).trans ⟨rfl, fun m hm => ?_⟩
    rw [List.mem_singleton.mp hm]
    exact hvalid
  | _, _, _, _, .respond hstatus hbody => Grows.calls hstatus.grows hbody.grows

theorem Chooses.grows : ∀ {arms : List (Expr × Span × List Stmt)} {o : Option (List Stmt)}
    {s s' : State} {acts : List Act}, Chooses arms o s s' acts → Grows s s' acts
  | _, _, _, _, _, .none => Grows.refl _
  | _, _, _, _, _, .otherwise h => h.grows
  | _, _, _, _, _, .this hc _ h => hc.grows.trans h.grows
  | _, _, _, _, _, .next hc _ h => hc.grows.trans h.grows

theorem Loops.grows : ∀ {x : String} {body : List Stmt} {items : List Value} {s s' : State}
    {acts : List Act}, Loops x body items s s' acts → Grows s s' acts
  | _, _, _, _, _, _, .nil => Grows.refl _
  | _, _, _, _, _, _, .cons hbody hitems => Grows.trans hbody.grows hitems.grows

theorem Executes.grows : ∀ {ts : List Stmt} {s s' : State} {acts : List Act},
    Executes ts s s' acts → Grows s s' acts
  | _, _, _, _, .nil => Grows.refl _
  | _, _, _, _, .cons ht hts => ht.grows.trans hts.grows

end

omit [External] in
theorem sendable_of_valid {subject : String} (h : validSubject subject = true) :
    sendableSubject subject = true := by
  unfold validSubject at h
  unfold sendableSubject
  rw [Bool.and_eq_true, Bool.not_eq_true', Bool.not_eq_true', List.any_eq_false] at h ⊢
  refine ⟨h.1, fun c hc hblank => h.2 c hc ?_⟩
  have hspace : c = ' ' ∨ c = '\t' ∨ c = '\r' ∨ c = '\n' := by simpa [or_assoc] using hblank
  rcases hspace with rfl | rfl | rfl | rfl <;> decide

inductive Stands : List Act → List Emit → Served → List Emit → Prop
  | here {pre c post} : Stands (pre ++ .call c :: post) (emitsOf pre) c (emitsOf post)
  | inside {pre name acts post before c after} : Stands acts before c after →
      Stands (pre ++ .call (.mk name acts) :: post) (emitsOf pre ++ before) c (after ++ emitsOf post)

omit [External] in
theorem Stands.contiguous {acts : List Act} {before after : List Emit} {c : Served}
    (h : Stands acts before c after) : emitsOf acts = before ++ c.emits ++ after := by
  induction h with
  | here => simp [emitsOf_append, emitsOf, Act.emits]
  | inside _ ih => simp [emitsOf_append, emitsOf, Act.emits, Served.emits, ih]

/-- The emits of a run can be sent, and they are those of its acts, in their order: the emits of
a called service together in its place, and the emit of a statement after the calls in it. -/
theorem emits_sendable_in_order {prog : Program} {event : Value} {eng eng' : Engine} {ctx : Ctx}
    (h : run prog event eng = (.ok ctx, eng')) :
    (∀ m ∈ ctx.emits, validSubject m.1 = true ∧ sendableSubject m.1 = true) ∧
    (∃ acts, Executes prog.stmts (startCtx event eng.callerPkg, eng) (ctx, eng') acts ∧
      ctx.emits = emitsOf acts ∧
      ∀ before c after, Stands acts before c after → ctx.emits = before ++ c.emits ++ after) ∧
    ∀ subject payload s s' acts, Performs (.emit subject payload) s s' acts →
      ∃ calls m, acts = Steps calls ++ [.emit m] := by
  unfold run at h
  split at h
  next ctx' eng'' hrun =>
    cases h
    obtain ⟨acts, hacts⟩ := executes_of_run (calls_runService _) hrun
    obtain ⟨hemits, hvalid⟩ := hacts.grows
    have hsame : ctx.emits = emitsOf acts := hemits
    refine ⟨fun m hm => ?_, ⟨acts, hacts, hsame, fun _ _ _ hstands => ?_⟩, ?_⟩
    · have hm' := hvalid m (hsame ▸ hm)
      exact ⟨hm', sendable_of_valid hm'⟩
    · rw [hsame, hstands.contiguous]
    · rintro _ _ _ _ _ ⟨⟩
      exact ⟨_, _, rfl⟩
  · cases h

end

def relayFlow : Program where
  source := none
  tool := none
  api := none
  driver := none
  stmts := [.emit (.lit (.string "vx.out")) (.invoke "note" [])]
  surface := []
  emitSubjects := ["vx.out"]
  invokes := []
  secretRefs := []

def noteFiles (path : String) : Option String :=
  if path = "/p/services/note.vjs" then some "emit \"vx.note\", 1" else none

theorem emits_sendable_in_order_relay :
    ∃ ctx, (@run ascii relayFlow .null
        (.withSecrets noteFiles "/p" "default" fun _ => .ok "")).1 = .ok ctx ∧
      ctx.emits.map (·.1) = ["vx.note", "vx.out"] ∧
      ∀ m ∈ ctx.emits, validSubject m.1 = true ∧ sendableSubject m.1 = true := by
  have hsubjects : ((@run ascii relayFlow .null
      (.withSecrets noteFiles "/p" "default" fun _ => .ok "")).1.toOption.map
        fun ctx => ctx.emits.map (·.1)) = some ["vx.note", "vx.out"] := by decide +kernel
  cases hrun : @run ascii relayFlow .null (.withSecrets noteFiles "/p" "default" fun _ => .ok "") with
  | mk r eng =>
    rw [hrun] at hsubjects
    cases r with
    | error f => cases hsubjects
    | ok ctx =>
      exact ⟨ctx, rfl, Option.some.inj hsubjects, (@emits_sendable_in_order ascii _ _ _ _ _ hrun).1⟩

end Vejas.Vjs
