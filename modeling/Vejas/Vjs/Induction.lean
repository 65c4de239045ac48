import Vejas.Vjs.Eval
import Vejas.Vjs.Occurrence

/-! Induction over the interpreter. A property of computations that reads and scoped
evaluation have, and that sequencing keeps, holds of every expression whose calls and
invokes have it; one that also holds of responses holds of every block whose calls,
invokes, emits and writes have it. -/

namespace Vejas.Vjs
open Json Rust Run

structure EvalKept (P : ∀ {α : Type}, Run α → Prop) : Prop where
  closed : Fallible.Closed P
  shadowing : ∀ {α : Type} (fields : Map) {m : Run α}, P m → P (shadowing fields m)

structure ExecKept (P : ∀ {α : Type}, Run α → Prop) : Prop where
  toEval : EvalKept P
  setResponse : ∀ r, P (setResponse r)

theorem ExecKept.closed {P : ∀ {α : Type}, Run α → Prop} (h : ExecKept P) : Fallible.Closed P := h.toEval.closed

structure VarsClosed (P : ∀ {α : Type}, Run α → Prop) : Prop where
  closed : Fallible.Closed P
  setVars : ∀ f, P (setVars f)
  setResponse : ∀ r, P (setResponse r)

/-- Kept by everything an expression can do but an invoke. -/
structure EvalClosed (P : ∀ {α : Type}, Run α → Prop) : Prop where
  closed : Fallible.Closed P
  noteGet : ∀ reference, P (noteGet reference)
  shadowing : ∀ {α : Type} (fields : Map) {m : Run α}, P m → P (shadowing fields m)

/-- Kept by everything a statement can do but an invoke and an emit. -/
structure ExecClosed (P : ∀ {α : Type}, Run α → Prop) : Prop where
  closed : Fallible.Closed P
  noteGet : ∀ reference, P (Run.noteGet reference)
  setVars : ∀ f, P (setVars f)
  setResponse : ∀ r, P (setResponse r)

section
variable {P : ∀ {α : Type}, Run α → Prop}

theorem VarsClosed.kept (h : VarsClosed P) : ExecKept P where
  setResponse := h.setResponse
  toEval := {
    closed := h.closed
    shadowing := by
      intro α fields m hm
      refine h.closed.bind (h.closed.reads _) fun saved => ?_
      refine h.closed.bind (h.setVars _) fun _ => ?_
      refine h.closed.bind hm fun a => ?_
      exact h.closed.bind (h.setVars _) fun _ => h.closed.pure a }

theorem ExecClosed.toVars (h : ExecClosed P) : VarsClosed P := ⟨h.closed, h.setVars, h.setResponse⟩

theorem ExecClosed.toEval (h : ExecClosed P) : EvalClosed P := ⟨h.closed, h.noteGet, h.toVars.kept.toEval.shadowing⟩

theorem filterItems_closed (h : EvalKept P) {cond : Run Value} (hc : P cond) :
    ∀ items, P (filterItems cond items)
  | [] => h.closed.pure _
  | _ :: items => by
    refine h.closed.bind (h.shadowing _ hc) fun keep => ?_
    exact h.closed.bind (filterItems_closed h hc items) fun out => h.closed.pure _

theorem forItems_closed (h : Fallible.Closed P) {x : String} (hx : ∀ item, P (setVars (Map.insert x item)))
    {body : Run Unit} (hb : P body) : ∀ items, P (forItems x body items)
  | [] => h.pure _
  | _ :: items => by
    refine h.bind (hx _) fun _ => ?_
    exact h.bind hb fun _ => forItems_closed h hx hb items

theorem assign_closed (h : VarsClosed P) (path : List String) (v : Value) : P (assign path v) := by
  unfold assign
  split
  · exact h.closed.throw _
  · exact h.setVars _
  · exact h.setVars _

variable [External]

theorem callBuiltin_closed (h : EvalClosed P) (name : String) (vals : List Value) :
    P (callBuiltin name vals) := by
  unfold callBuiltin
  split
  · split
    · exact h.closed.bind (h.noteGet _) fun _ => h.closed.reads _
    · exact h.closed.throw _
  · exact h.closed.reads _

theorem subjectOf_closed {α : Type} (h : Fallible.Closed P) {f : String → Run α}
    (hf : ∀ s, validSubject s = true → P (f s)) (v : Value) : P (subjectOf v >>= f) := by
  unfold subjectOf
  split
  · split
    next s hs => exact hf s hs
    · exact h.throw _
  · exact h.throw _

variable {inv : Invoke}

def ExprLeaf (P : ∀ {α : Type}, Run α → Prop) (inv : Invoke) : Expr → Prop
  | .call name args => P (evalList inv args) → P (evalList inv args >>= callBuiltin name)
  | .invoke name _ => ∀ m, P (inv name m)
  | _ => True

mutual

theorem eval_of_leaves (h : EvalKept P) : ∀ e, (∀ c, Occurs c e → ExprLeaf P inv c) → P (eval inv e)
  | .lit _, _ => h.closed.pure _
  | .var _, _ => h.closed.bind (h.closed.reads _) fun _ => h.closed.pure _
  | .fString parts, hl =>
    h.closed.bind (evalParts_of_leaves h parts fun _ he c hc => hl c (hc.tail (.hole he))) fun _ => h.closed.pure _
  | .doc fields, hl =>
    h.closed.bind (evalFields_of_leaves h fields (fun _ he c hc => hl c (hc.tail (.docField he))) [])
      fun _ => h.closed.pure _
  | .array items, hl =>
    h.closed.bind (evalList_of_leaves h items fun _ he c hc => hl c (hc.tail (.item he))) fun _ => h.closed.pure _
  | .invoke _ args, hl =>
    h.closed.bind (evalFields_of_leaves h args (fun _ he c hc => hl c (hc.tail (.invokeArg he))) []) (hl _ .refl)
  | .field base _ _, hl =>
    h.closed.bind (eval_of_leaves h base fun c hc => hl c (hc.tail .fieldBase)) fun _ => h.closed.reads _
  | .index base key, hl => by
    refine h.closed.bind (eval_of_leaves h base fun c hc => hl c (hc.tail .indexBase)) fun b => ?_
    exact h.closed.bind (eval_of_leaves h key fun c hc => hl c (hc.tail .indexKey)) fun k => h.closed.pure _
  | .projection base, hl => eval_of_leaves h base fun c hc => hl c (hc.tail .projected)
  | .filter base cond, hl => by
    have hc := eval_of_leaves h cond fun c hc => hl c (hc.tail .filterCond)
    refine h.closed.bind (eval_of_leaves h base fun c hc => hl c (hc.tail .filterBase)) fun b => ?_
    cases b with
    | array items => exact h.closed.bind (filterItems_closed h hc items) fun _ => h.closed.pure _
    | _ => exact h.closed.pure _
  | .call _ args, hl => hl _ .refl (evalList_of_leaves h args fun _ he c hc => hl c (hc.tail (.callArg he)))
  | .unary _ e, hl => h.closed.bind (eval_of_leaves h e fun c hc => hl c (hc.tail .unary)) fun _ => h.closed.pure _
  | .bin op l r, hl => by
    have hleft := eval_of_leaves h l fun c hc => hl c (hc.tail .left)
    have hright := eval_of_leaves h r fun c hc => hl c (hc.tail .right)
    cases op
    case and =>
      refine h.closed.bind hleft fun lv => ?_
      split
      · exact hright
      · exact h.closed.pure _
    case or =>
      refine h.closed.bind hleft fun lv => ?_
      split
      · exact h.closed.pure _
      · exact hright
    case coalesce =>
      refine h.closed.bind hleft fun lv => ?_
      split
      · exact hright
      · exact h.closed.pure _
    all_goals exact h.closed.bind hleft fun lv => h.closed.bind hright fun rv => h.closed.pure _

theorem evalParts_of_leaves (h : EvalKept P) :
    ∀ ps, (∀ e, .expr e ∈ ps → ∀ c, Occurs c e → ExprLeaf P inv c) → P (evalParts inv ps)
  | [], _ => h.closed.pure _
  | .lit _ :: ps, hl =>
    h.closed.bind (evalParts_of_leaves h ps fun e he => hl e (List.mem_cons_of_mem _ he)) fun _ => h.closed.pure _
  | .expr e :: ps, hl => by
    refine h.closed.bind (eval_of_leaves h e (hl e List.mem_cons_self)) fun v => ?_
    exact h.closed.bind (evalParts_of_leaves h ps fun e he => hl e (List.mem_cons_of_mem _ he))
      fun _ => h.closed.pure _

theorem evalFields_of_leaves (h : EvalKept P) : ∀ fs, (∀ {k : String} e, (k, e) ∈ fs → ∀ c, Occurs c e →
    ExprLeaf P inv c) → ∀ m, P (evalFields inv m fs)
  | [], _, _ => h.closed.pure _
  | (_, e) :: fs, hl, m => by
    refine h.closed.bind (eval_of_leaves h e (hl e List.mem_cons_self)) fun v => ?_
    exact evalFields_of_leaves h fs (fun e he => hl e (List.mem_cons_of_mem _ he)) _

theorem evalList_of_leaves (h : EvalKept P) :
    ∀ es, (∀ e ∈ es, ∀ c, Occurs c e → ExprLeaf P inv c) → P (evalList inv es)
  | [], _ => h.closed.pure _
  | e :: es, hl => by
    refine h.closed.bind (eval_of_leaves h e (hl e List.mem_cons_self)) fun v => ?_
    exact h.closed.bind (evalList_of_leaves h es fun e he => hl e (List.mem_cons_of_mem _ he)) fun _ => h.closed.pure _

end

def StmtLeaf (P : ∀ {α : Type}, Run α → Prop) (inv : Invoke) : Stmt → Prop
  | .assign path _ => ∀ v, P (assign path v)
  | .loop x _ _ => ∀ item, P (setVars (Map.insert x item))
  | .invokeMerge name _ => (∀ m, P (inv name m)) ∧ ∀ out, P (setVars (Map.extend out))
  | .emit _ _ => ∀ s v, validSubject s = true → P (pushEmit (s, v))
  | _ => True

structure BlockLeaves (P : ∀ {α : Type}, Run α → Prop) (inv : Invoke) (ss : List Stmt) : Prop where
  stmt : ∀ t, StmtIn t ss → StmtLeaf P inv t
  expr : ∀ c, ExprIn c ss → ExprLeaf P inv c

theorem BlockLeaves.evaluated {ss : List Stmt} {s : Stmt} {e : Expr} (h : BlockLeaves P inv ss) (hs : StmtIn s ss)
    (he : Evaluated e s) (c : Expr) (hc : Occurs c e) : ExprLeaf P inv c := h.expr c ⟨s, e, hs, he, hc⟩

mutual

theorem execStmt_of_leaves (h : ExecKept P) {ss : List Stmt} (hl : BlockLeaves P inv ss) :
    ∀ s, StmtIn s ss → P (execStmt inv s)
  | .assign _ _, hs => h.closed.bind (eval_of_leaves h.toEval _ (hl.evaluated hs .assign)) (hl.stmt _ hs)
  | .invokeMerge _ args, hs => by
    refine h.closed.bind (evalFields_of_leaves h.toEval args (fun e he => hl.evaluated hs (.invokeArg he)) []) fun m => ?_
    exact h.closed.bind ((hl.stmt _ hs).1 m) fun out => (hl.stmt _ hs).2 _
  | .ite arms otherwise, hs => by
    refine execArms_of_leaves h hl arms (fun c span body hm => ⟨hl.evaluated hs (.cond hm), fun r hr => ?_⟩)
      (execElse_of_leaves h hl otherwise fun body hb r hr => ?_)
    · exact hs.inner (.arm hm hr)
    · subst hb
      exact hs.inner (.orElse hr)
  | .loop _ _ body, hs => by
    have hb := execBlock_of_leaves h hl body fun r hr => hs.inner (.body hr)
    refine h.closed.bind (eval_of_leaves h.toEval _ (hl.evaluated hs .iter)) fun items => ?_
    exact forItems_closed h.closed (hl.stmt _ hs) hb _
  | .emit _ _, hs => by
    refine h.closed.bind (eval_of_leaves h.toEval _ (hl.evaluated hs .subject)) fun v => ?_
    refine subjectOf_closed h.closed (fun s hvalid => ?_) v
    exact h.closed.bind (eval_of_leaves h.toEval _ (hl.evaluated hs .payload)) fun v => hl.stmt _ hs s v hvalid
  | .respond _ _, hs => by
    refine h.closed.bind (eval_of_leaves h.toEval _ (hl.evaluated hs .status)) fun st => ?_
    exact h.closed.bind (eval_of_leaves h.toEval _ (hl.evaluated hs .respondBody)) fun b => h.setResponse _

theorem execArms_of_leaves (h : ExecKept P) {ss : List Stmt} (hl : BlockLeaves P inv ss) :
    ∀ arms : List (Expr × Span × List Stmt), (∀ c span body, (c, span, body) ∈ arms →
      (∀ c', Occurs c' c → ExprLeaf P inv c') ∧ ∀ r ∈ body, StmtIn r ss) → ∀ {otherwise : Run Unit},
      P otherwise → P (execArms inv otherwise arms)
  | [], _, _, ho => ho
  | (cond, span, body) :: arms, hin, _, ho => by
    obtain ⟨hc, hb⟩ := hin cond span body List.mem_cons_self
    refine h.closed.bind (eval_of_leaves h.toEval cond hc) fun c => ?_
    split
    · exact execBlock_of_leaves h hl body hb
    · exact execArms_of_leaves h hl arms (fun c span body hm => hin c span body (List.mem_cons_of_mem _ hm)) ho

theorem execElse_of_leaves (h : ExecKept P) {ss : List Stmt} (hl : BlockLeaves P inv ss) :
    ∀ o : Option (List Stmt), (∀ body, o = some body → ∀ r ∈ body, StmtIn r ss) → P (execElse inv o)
  | none, _ => h.closed.pure _
  | some body, hin => execBlock_of_leaves h hl body (hin body rfl)

theorem execBlock_of_leaves (h : ExecKept P) {ss : List Stmt} (hl : BlockLeaves P inv ss) :
    ∀ body : List Stmt, (∀ r ∈ body, StmtIn r ss) → P (execBlock inv body)
  | [], _ => h.closed.pure _
  | s :: body, hin => by
    refine h.closed.bind (execStmt_of_leaves h hl s (hin s List.mem_cons_self)) fun _ => ?_
    exact execBlock_of_leaves h hl body fun r hr => hin r (List.mem_cons_of_mem _ hr)

end

theorem execBlock_of_calls (h : VarsClosed P) {ss : List Stmt}
    (hinvoke : ∀ name args, StmtIn (.invokeMerge name args) ss → ∀ m, P (inv name m))
    (hemit : ∀ subject payload, StmtIn (.emit subject payload) ss → ∀ s v, validSubject s = true → P (pushEmit (s, v)))
    (hexpr : ∀ c, ExprIn c ss → ExprLeaf P inv c) : P (execBlock inv ss) := by
  refine execBlock_of_leaves h.kept ⟨fun t ht => ?_, hexpr⟩ ss fun r hr => ⟨r, hr, .refl⟩
  cases t with
  | assign path e => exact assign_closed h path
  | loop x iter body => exact fun item => h.setVars _
  | invokeMerge name args => exact ⟨hinvoke name args ht, fun out => h.setVars _⟩
  | emit subject payload => exact hemit subject payload ht
  | _ => trivial

theorem exprLeaf_closed (h : EvalClosed P) {e : Expr} (hi : exprWritesBus e = true → ∀ name args, P (inv name args))
    (c : Expr) (hc : Occurs c e) : ExprLeaf P inv c := by
  cases c with
  | call name args => exact fun hargs => h.closed.bind hargs fun vals => callBuiltin_closed h name vals
  | invoke name args => exact hi ((exprWritesBus_iff e).mpr ⟨name, args, hc⟩) name
  | _ => trivial

theorem eval_closed (h : EvalClosed P) (e : Expr)
    (hi : exprWritesBus e = true → ∀ name args, P (inv name args)) : P (eval inv e) :=
  eval_of_leaves ⟨h.closed, h.shadowing⟩ e (exprLeaf_closed h hi)

def Writes (P : ∀ {α : Type}, Run α → Prop) (inv : Invoke) : Prop :=
  (∀ name args, P (inv name args)) ∧ ∀ s v, validSubject s = true → P (pushEmit (s, v))

theorem execBlock_closed (h : ExecClosed P) (ss : List Stmt) (hi : stmtsWriteBus ss = true → Writes P inv) :
    P (execBlock inv ss) := by
  refine execBlock_of_calls h.toVars (fun name args ht => ?_) (fun subject payload ht => ?_) fun c hc => ?_
  · obtain ⟨s, hs, hn⟩ := ht
    exact (hi ((stmtsWriteBus_iff ss).mpr ⟨s, hs, _, hn, .inr (.inl ⟨name, args, rfl⟩)⟩)).1 name
  · obtain ⟨s, hs, hn⟩ := ht
    exact (hi ((stmtsWriteBus_iff ss).mpr ⟨s, hs, _, hn, .inl ⟨subject, payload, rfl⟩⟩)).2
  · obtain ⟨t, e, ⟨s, hs, hn⟩, he, hc⟩ := hc
    refine exprLeaf_closed h.toEval (fun hw => ?_) c hc
    exact (hi ((stmtsWriteBus_iff ss).mpr ⟨s, hs, t, hn, writesHere_of_expr he hw⟩)).1

end

/-- A relation of computations that everything but an invoke is in with itself, and that
sequencing keeps. -/
structure Coupled (R : ∀ {α : Type}, Run α → Run α → Prop) : Prop where
  bind : ∀ {α β : Type} {m m' : Run α} {f f' : α → Run β}, R m m' → (∀ a, R (f a) (f' a)) →
    R (m >>= f) (m' >>= f')
  lift : ∀ {α : Type} (r : Except Fault α), r ≠ .error .outOfFuel → R (lift r) (lift r)
  vars : R vars vars
  secret : ∀ reference, R (secret reference) (secret reference)
  setVars : ∀ f, R (setVars f) (setVars f)
  pushEmit : ∀ m, R (pushEmit m) (pushEmit m)
  setResponse : ∀ r, R (setResponse r) (setResponse r)

section
variable {R : ∀ {α : Type}, Run α → Run α → Prop}

theorem Coupled.pure {α : Type} (h : Coupled R) (a : α) : R (pure a : Run α) (pure a) := h.lift (.ok a) nofun

theorem Coupled.throw {α : Type} (h : Coupled R) {f : Fault} (hf : f ≠ .outOfFuel) :
    R (Fallible.throw f : Run α) (Fallible.throw f) := h.lift (.error f) fun heq => hf (Except.error.inj heq)

theorem shadowing_coupled {α : Type} (h : Coupled R) (fields : Map) {m m' : Run α} (hm : R m m') :
    R (shadowing fields m) (shadowing fields m') := by
  refine h.bind h.vars fun saved => ?_
  refine h.bind (h.setVars _) fun _ => ?_
  refine h.bind hm fun a => ?_
  exact h.bind (h.setVars _) fun _ => h.pure a

theorem filterItems_coupled (h : Coupled R) {cond cond' : Run Value} (hc : R cond cond') (items : List Value) :
    R (filterItems cond items) (filterItems cond' items) := by
  induction items with
  | nil => exact h.pure _
  | cons item items ih =>
    exact h.bind (shadowing_coupled h _ hc) fun keep => h.bind ih fun out => h.pure _

theorem forItems_coupled (h : Coupled R) (x : String) {body body' : Run Unit} (hb : R body body')
    (items : List Value) : R (forItems x body items) (forItems x body' items) := by
  induction items with
  | nil => exact h.pure _
  | cons item items ih => exact h.bind (h.setVars _) fun _ => h.bind hb fun _ => ih

theorem assign_coupled (h : Coupled R) (path : List String) (v : Value) : R (assign path v) (assign path v) := by
  unfold assign
  split
  · exact h.throw nofun
  · exact h.setVars _
  · exact h.setVars _

theorem ite_ne {c : Prop} [Decidable c] {a b : Except Fault Value} (ha : a ≠ .error .outOfFuel)
    (hb : b ≠ .error .outOfFuel) : (if c then a else b) ≠ .error .outOfFuel := by
  split
  · exact ha
  · exact hb

variable [External]

theorem builtin_ne (name : String) (args : List Value) : builtin name args ≠ .error .outOfFuel := by
  unfold builtin
  repeat' apply ite_ne
  all_goals exact nofun

theorem readField_ne (b : Value) (f : String) (safe : Bool) :
    readField b f safe ≠ .error .outOfFuel := by
  unfold readField
  split
  · nofun
  · nofun
  · nofun
  · exact ite_ne nofun nofun

theorem callBuiltin_coupled (h : Coupled R) (name : String) (vals : List Value) :
    R (callBuiltin name vals) (callBuiltin name vals) := by
  unfold callBuiltin
  split
  · split
    · exact h.secret _
    · exact h.throw nofun
  · exact h.lift _ (builtin_ne name vals)

theorem subjectOf_coupled (h : Coupled R) (v : Value) : R (subjectOf v) (subjectOf v) := by
  unfold subjectOf
  split
  · split
    · exact h.pure _
    · exact h.throw nofun
  · exact h.throw nofun

variable {inv inv' : Invoke}

mutual

theorem eval_coupled (h : Coupled R) (hi : ∀ name args, R (inv name args) (inv' name args)) :
    ∀ e, R (eval inv e) (eval inv' e)
  | .lit _ => h.pure _
  | .var _ => h.bind h.vars fun _ => h.pure _
  | .fString parts => h.bind (evalParts_coupled h hi parts) fun _ => h.pure _
  | .doc fields => h.bind (evalFields_coupled h hi fields []) fun _ => h.pure _
  | .array items => h.bind (evalList_coupled h hi items) fun _ => h.pure _
  | .invoke name args => h.bind (evalFields_coupled h hi args []) fun m => hi name m
  | .field base f safe => h.bind (eval_coupled h hi base) fun b => h.lift _ (readField_ne b f safe)
  | .index base key => h.bind (eval_coupled h hi base) fun b => h.bind (eval_coupled h hi key) fun k => h.pure _
  | .projection base => eval_coupled h hi base
  | .filter base cond => by
    refine h.bind (eval_coupled h hi base) fun b => ?_
    cases b with
    | array items => exact h.bind (filterItems_coupled h (eval_coupled h hi cond) items) fun _ => h.pure _
    | _ => exact h.pure _
  | .call name args => h.bind (evalList_coupled h hi args) fun vals => callBuiltin_coupled h name vals
  | .unary _ e => h.bind (eval_coupled h hi e) fun _ => h.pure _
  | .bin op l r => by
    have hl := eval_coupled h hi l
    have hr := eval_coupled h hi r
    cases op
    case and =>
      refine h.bind hl fun lv => ?_
      split
      · exact hr
      · exact h.pure _
    case or =>
      refine h.bind hl fun lv => ?_
      split
      · exact h.pure _
      · exact hr
    case coalesce =>
      refine h.bind hl fun lv => ?_
      split
      · exact hr
      · exact h.pure _
    all_goals exact h.bind hl fun lv => h.bind hr fun rv => h.pure _

theorem evalParts_coupled (h : Coupled R) (hi : ∀ name args, R (inv name args) (inv' name args)) :
    ∀ ps, R (evalParts inv ps) (evalParts inv' ps)
  | [] => h.pure _
  | .lit _ :: ps => h.bind (evalParts_coupled h hi ps) fun _ => h.pure _
  | .expr e :: ps => h.bind (eval_coupled h hi e) fun _ => h.bind (evalParts_coupled h hi ps) fun _ => h.pure _

theorem evalFields_coupled (h : Coupled R) (hi : ∀ name args, R (inv name args) (inv' name args)) :
    ∀ fs m, R (evalFields inv m fs) (evalFields inv' m fs)
  | [], _ => h.pure _
  | (_, e) :: fs, _ => h.bind (eval_coupled h hi e) fun _ => evalFields_coupled h hi fs _

theorem evalList_coupled (h : Coupled R) (hi : ∀ name args, R (inv name args) (inv' name args)) :
    ∀ es, R (evalList inv es) (evalList inv' es)
  | [] => h.pure _
  | e :: es => h.bind (eval_coupled h hi e) fun _ => h.bind (evalList_coupled h hi es) fun _ => h.pure _

end

mutual

theorem execStmt_coupled (h : Coupled R) (hi : ∀ name args, R (inv name args) (inv' name args)) :
    ∀ s, R (execStmt inv s) (execStmt inv' s)
  | .assign path e => h.bind (eval_coupled h hi e) fun v => assign_coupled h path v
  | .invokeMerge name args =>
    h.bind (evalFields_coupled h hi args []) fun m => h.bind (hi name m) fun out => h.setVars _
  | .ite arms otherwise => execArms_coupled h hi (execElse_coupled h hi otherwise) arms
  | .loop x iter body =>
    h.bind (eval_coupled h hi iter) fun items => forItems_coupled h x (execBlock_coupled h hi body) _
  | .emit subject payload => by
    refine h.bind (eval_coupled h hi subject) fun v => ?_
    refine h.bind (subjectOf_coupled h v) fun s => ?_
    exact h.bind (eval_coupled h hi payload) fun w => h.pushEmit _
  | .respond status body =>
    h.bind (eval_coupled h hi status) fun st => h.bind (eval_coupled h hi body) fun b => h.setResponse _

theorem execArms_coupled (h : Coupled R) (hi : ∀ name args, R (inv name args) (inv' name args))
    {otherwise otherwise' : Run Unit} (ho : R otherwise otherwise') :
    ∀ arms, R (execArms inv otherwise arms) (execArms inv' otherwise' arms)
  | [] => ho
  | (cond, _, body) :: arms => by
    refine h.bind (eval_coupled h hi cond) fun c => ?_
    split
    · exact execBlock_coupled h hi body
    · exact execArms_coupled h hi ho arms

theorem execElse_coupled (h : Coupled R) (hi : ∀ name args, R (inv name args) (inv' name args)) :
    ∀ o, R (execElse inv o) (execElse inv' o)
  | none => h.pure _
  | some body => execBlock_coupled h hi body

theorem execBlock_coupled (h : Coupled R) (hi : ∀ name args, R (inv name args) (inv' name args)) :
    ∀ ss, R (execBlock inv ss) (execBlock inv' ss)
  | [] => h.pure _
  | s :: ss => h.bind (execStmt_coupled h hi s) fun _ => execBlock_coupled h hi ss

end

end

end Vejas.Vjs
