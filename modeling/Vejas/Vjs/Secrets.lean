import Vejas.Vjs.Induction

/-! The inventory of secret references and the references a run looks up. The parser walks every
expression of a program for `secret("…")`; what its statements look up is in the inventory where each
of these calls names its reference, and not where a reference is computed. -/

namespace Vejas.Vjs
open Json Rust Run

theorem subset_pushNew {α : Type} [BEq α] (v : List α) (x : α) : v ⊆ pushNew v x := by
  unfold pushNew
  split
  · exact List.Subset.refl _
  · exact List.subset_append_left _ _

theorem mem_pushNew {α : Type} [BEq α] [LawfulBEq α] (v : List α) (x : α) : x ∈ pushNew v x := by
  unfold pushNew
  split
  next h => exact List.contains_iff_mem.mp h
  · exact List.mem_append_right _ List.mem_cons_self

section
variable (ctx : String)

mutual

theorem subset_walkExpr : ∀ (out : Refs) (e : Expr), out ⊆ walkExpr ctx out e
  | out, .call name args => by
    refine List.Subset.trans ?_ (subset_walkExprs _ args)
    split
    · split
      · exact subset_pushNew _ _
      · exact List.Subset.refl _
    · exact List.Subset.refl _
  | out, .fString parts => subset_walkParts out parts
  | out, .doc fields => subset_walkFields out fields
  | out, .array items => subset_walkExprs out items
  | out, .field b _ _ => subset_walkExpr out b
  | out, .projection b => subset_walkExpr out b
  | out, .unary _ b => subset_walkExpr out b
  | out, .index a b => List.Subset.trans (subset_walkExpr out a) (subset_walkExpr _ b)
  | out, .filter a b => List.Subset.trans (subset_walkExpr out a) (subset_walkExpr _ b)
  | out, .bin _ a b => List.Subset.trans (subset_walkExpr out a) (subset_walkExpr _ b)
  | out, .invoke _ args => subset_walkFields out args
  | _, .lit _ => List.Subset.refl _
  | _, .var _ => List.Subset.refl _

theorem subset_walkParts : ∀ (out : Refs) (ps : List FStringPart), out ⊆ walkParts ctx out ps
  | _, [] => List.Subset.refl _
  | out, .lit _ :: ps => subset_walkParts out ps
  | out, .expr e :: ps => List.Subset.trans (subset_walkExpr out e) (subset_walkParts _ ps)

theorem subset_walkFields : ∀ (out : Refs) (fs : List (String × Expr)), out ⊆ walkFields ctx out fs
  | _, [] => List.Subset.refl _
  | out, (_, e) :: fs => List.Subset.trans (subset_walkExpr out e) (subset_walkFields _ fs)

theorem subset_walkExprs : ∀ (out : Refs) (es : List Expr), out ⊆ walkExprs ctx out es
  | _, [] => List.Subset.refl _
  | out, e :: es => List.Subset.trans (subset_walkExpr out e) (subset_walkExprs _ es)

end

theorem walkParts_mem {e : Expr} {ps : List FStringPart} (h : .expr e ∈ ps) (out : Refs) :
    ∃ out', walkExpr ctx out' e ⊆ walkParts ctx out ps := by
  induction ps generalizing out with
  | nil => cases h
  | cons p ps ih =>
    cases p with
    | lit s => exact ih (by simpa using h) out
    | expr e' =>
      rcases List.mem_cons.mp h with heq | h
      · cases heq
        exact ⟨out, subset_walkParts ctx _ ps⟩
      · exact ih h _

theorem walkFields_mem {k : String} {e : Expr} {fs : List (String × Expr)} (h : (k, e) ∈ fs) (out : Refs) :
    ∃ out', walkExpr ctx out' e ⊆ walkFields ctx out fs := by
  induction fs generalizing out with
  | nil => cases h
  | cons f fs ih =>
    rcases List.mem_cons.mp h with heq | h
    · cases heq
      exact ⟨out, subset_walkFields ctx _ fs⟩
    · exact ih h _

theorem walkExprs_mem {e : Expr} {es : List Expr} (h : e ∈ es) (out : Refs) :
    ∃ out', walkExpr ctx out' e ⊆ walkExprs ctx out es := by
  induction es generalizing out with
  | nil => cases h
  | cons f es ih =>
    rcases List.mem_cons.mp h with heq | h
    · cases heq
      exact ⟨out, subset_walkExprs ctx _ es⟩
    · exact ih h _

theorem walkExpr_operand {c e : Expr} (h : Operand c e) (out : Refs) :
    ∃ out', walkExpr ctx out' c ⊆ walkExpr ctx out e := by
  cases h with
  | hole hm => exact walkParts_mem ctx hm out
  | docField hm => exact walkFields_mem ctx hm out
  | item hm => exact walkExprs_mem ctx hm out
  | callArg hm => exact walkExprs_mem ctx hm _
  | invokeArg hm => exact walkFields_mem ctx hm out
  | fieldBase => exact ⟨out, List.Subset.refl _⟩
  | projected => exact ⟨out, List.Subset.refl _⟩
  | unary => exact ⟨out, List.Subset.refl _⟩
  | indexBase => exact ⟨out, subset_walkExpr ctx _ _⟩
  | filterBase => exact ⟨out, subset_walkExpr ctx _ _⟩
  | left => exact ⟨out, subset_walkExpr ctx _ _⟩
  | indexKey => exact ⟨_, List.Subset.refl _⟩
  | filterCond => exact ⟨_, List.Subset.refl _⟩
  | right => exact ⟨_, List.Subset.refl _⟩

theorem walkExpr_occurs {c e : Expr} (h : Occurs c e) (out : Refs) :
    ∃ out', walkExpr ctx out' c ⊆ walkExpr ctx out e := by
  induction h generalizing out with
  | refl => exact ⟨out, List.Subset.refl _⟩
  | tail _ hop ih =>
    obtain ⟨mid, hmid⟩ := walkExpr_operand ctx hop out
    obtain ⟨out', hout⟩ := ih mid
    exact ⟨out', List.Subset.trans hout hmid⟩

theorem walkExpr_secret (out : Refs) (r : String) (args : List Expr) :
    (ctx, r) ∈ walkExpr ctx out (.call "secret" (.lit (.string r) :: args)) :=
  subset_walkExprs ctx _ _ (mem_pushNew out (ctx, r))

end

mutual

theorem subset_walkStmt : ∀ (out : Refs) (s : Stmt), out ⊆ walkStmt out s
  | out, .assign _ e => subset_walkExpr _ out e
  | out, .emit a b => List.Subset.trans (subset_walkExpr _ out a) (subset_walkExpr _ _ b)
  | out, .respond a b => List.Subset.trans (subset_walkExpr _ out a) (subset_walkExpr _ _ b)
  | out, .invokeMerge _ args => subset_walkFields _ out args
  | out, .ite arms otherwise => List.Subset.trans (subset_walkArms out arms) (subset_walkElse _ otherwise)
  | out, .loop _ iter body => List.Subset.trans (subset_walkExpr _ out iter) (subset_walkStmts _ body)

theorem subset_walkArms : ∀ (out : Refs) (arms : List (Expr × Span × List Stmt)), out ⊆ walkArms out arms
  | _, [] => List.Subset.refl _
  | out, (c, _, body) :: arms =>
    List.Subset.trans (subset_walkExpr _ out c) (List.Subset.trans (subset_walkStmts _ body) (subset_walkArms _ arms))

theorem subset_walkElse : ∀ (out : Refs) (o : Option (List Stmt)), out ⊆ walkElse out o
  | _, none => List.Subset.refl _
  | out, some body => subset_walkStmts out body

theorem subset_walkStmts : ∀ (out : Refs) (ss : List Stmt), out ⊆ walkStmts out ss
  | _, [] => List.Subset.refl _
  | out, s :: ss => List.Subset.trans (subset_walkStmt out s) (subset_walkStmts _ ss)

end

theorem walkStmts_mem {s : Stmt} {ss : List Stmt} (h : s ∈ ss) (out : Refs) :
    ∃ out', walkStmt out' s ⊆ walkStmts out ss := by
  induction ss generalizing out with
  | nil => cases h
  | cons s' ss ih =>
    rcases List.mem_cons.mp h with rfl | h
    · exact ⟨out, subset_walkStmts _ ss⟩
    · exact ih h _

theorem walkArms_mem {c : Expr} {span : Span} {body : List Stmt} {arms : List (Expr × Span × List Stmt)}
    (h : (c, span, body) ∈ arms) (out : Refs) :
    ∃ out', walkStmts (walkExpr "if" out' c) body ⊆ walkArms out arms := by
  induction arms generalizing out with
  | nil => cases h
  | cons arm arms ih =>
    rcases List.mem_cons.mp h with heq | h
    · cases heq
      exact ⟨out, subset_walkArms _ arms⟩
    · exact ih h _

theorem walkStmt_nested {t s : Stmt} (h : Nested t s) (out : Refs) : ∃ out', walkStmt out' t ⊆ walkStmt out s := by
  cases h with
  | arm ha hb =>
    obtain ⟨mid, hmid⟩ := walkArms_mem ha out
    obtain ⟨out', hout⟩ := walkStmts_mem hb _
    exact ⟨out', List.Subset.trans hout (List.Subset.trans hmid (subset_walkElse _ _))⟩
  | orElse hb => exact walkStmts_mem hb _
  | body hb => exact walkStmts_mem hb _

theorem walkStmt_evaluated {e : Expr} {s : Stmt} (h : Evaluated e s) (out : Refs) :
    ∃ ctx out', walkExpr ctx out' e ⊆ walkStmt out s := by
  cases h with
  | assign => exact ⟨_, out, List.Subset.refl _⟩
  | cond hm =>
    obtain ⟨out', hout⟩ := walkArms_mem hm out
    exact ⟨_, out', List.Subset.trans (subset_walkStmts _ _) (List.Subset.trans hout (subset_walkElse _ _))⟩
  | iter => exact ⟨_, out, subset_walkStmts _ _⟩
  | subject => exact ⟨_, out, subset_walkExpr _ _ _⟩
  | payload => exact ⟨_, _, List.Subset.refl _⟩
  | status => exact ⟨_, out, subset_walkExpr _ _ _⟩
  | respondBody => exact ⟨_, _, List.Subset.refl _⟩
  | invokeArg hm =>
    obtain ⟨out', hout⟩ := walkFields_mem "invoke" hm out
    exact ⟨_, out', hout⟩

theorem walkStmts_secret {r : String} {args : List Expr} {ss : List Stmt}
    (h : ExprIn (.call "secret" (.lit (.string r) :: args)) ss) (out : Refs) : ∃ v, (v, r) ∈ walkStmts out ss := by
  obtain ⟨t, e, ⟨s, hs, hn⟩, he, hc⟩ := h
  have hstmt : ∀ out, ∃ out', walkStmt out' t ⊆ walkStmt out s := by
    clear hs
    induction hn with
    | refl => exact fun out => ⟨out, List.Subset.refl _⟩
    | tail _ hop ih =>
      intro out
      obtain ⟨mid, hmid⟩ := walkStmt_nested hop out
      obtain ⟨out', hout⟩ := ih mid
      exact ⟨out', List.Subset.trans hout hmid⟩
  obtain ⟨out₁, h₁⟩ := walkStmts_mem hs out
  obtain ⟨out₂, h₂⟩ := hstmt out₁
  obtain ⟨ctx, out₃, h₃⟩ := walkStmt_evaluated he out₂
  obtain ⟨out₄, h₄⟩ := walkExpr_occurs ctx hc out₃
  exact ⟨ctx, h₁ (h₂ (h₃ (h₄ (walkExpr_secret ctx out₄ r args))))⟩

/-- Every `secret` call of the block has a literal for its reference, or no argument at all. -/
def NamesSecrets (ss : List Stmt) : Prop :=
  ∀ args, ExprIn (.call "secret" args) ss → ∀ e, args.head? = some e → ∃ v, e = .lit v

abbrev Lookup := Owner × String

def Recorded (ok : Lookup → Prop) (base : List Lookup) (e : Engine) : Prop := ∀ g ∈ e.gets, g ∈ base ∨ ok g

/-- The code of `owner` is running, and everything looked up since `base` is as `ok` says. -/
def Running (ok : Lookup → Prop) (owner : Owner) (base : List Lookup) (s : Ctx × Engine) : Prop :=
  s.1.owner = owner ∧ Recorded ok base s.2

abbrev StaysRunning (ok : Lookup → Prop) (owner : Owner) (base : List Lookup) {α : Type} (m : Run α) : Prop :=
  Fallible.Maintains (Running ok owner base) (fun _ => Running ok owner base) m

section
variable {ok : Lookup → Prop} {owner : Owner} {base : List Lookup}

theorem varsClosed_running : VarsClosed (StaysRunning ok owner base) where
  closed := Fallible.closed_maintains fun _ _ h => h
  setVars _ := .modify fun _ h => h
  setResponse _ := .modify fun _ h => h

theorem noteGet_running {reference : String} (h : ok (owner, reference)) :
    StaysRunning ok owner base (noteGet reference) := by
  refine .modify fun s hs => ⟨hs.1, fun g hg => ?_⟩
  rcases List.mem_append.mp hg with hg | hg
  · exact hs.2 g hg
  · rw [List.mem_singleton.mp hg, hs.1]
    exact .inr h

theorem execClosed_running (h : ∀ reference, ok (owner, reference)) : ExecClosed (StaysRunning ok owner base) where
  closed := varsClosed_running.closed
  noteGet reference := noteGet_running (h reference)
  setVars := varsClosed_running.setVars
  setResponse := varsClosed_running.setResponse

theorem invokeBy_running {svc : Service} {name : String} {args : Map}
    (h : Fallible.Maintains (Recorded ok base) (fun _ => Recorded ok base) (svc owner name args)) :
    StaysRunning ok owner base (invokeBy svc name args) := by
  rintro ⟨ctx, e⟩ ⟨rfl, he⟩
  unfold invokeBy
  rcases hr : svc ctx.owner name args e with ⟨f | ⟨out, emits⟩, e'⟩
  · exact ⟨rfl, h.error he hr⟩
  · exact ⟨rfl, h.ok he hr⟩

variable [External]

theorem run_recorded {prog : Program} {event : Value} {eng : Engine}
    (hinvoke : ∀ name args, StmtIn (.invokeMerge name args) prog.stmts →
      ∀ m, StaysRunning ok (.program eng.callerPkg) eng.gets (invoke name m))
    (hexpr : ∀ c, ExprIn c prog.stmts → ExprLeaf (StaysRunning ok (.program eng.callerPkg) eng.gets) invoke c) :
    Recorded ok eng.gets (run prog event eng).2 := by
  have hblock := execBlock_of_calls varsClosed_running hinvoke (fun _ _ _ _ _ _ => .modify fun _ h => h) hexpr
  have hstart : Running ok (.program eng.callerPkg) eng.gets (startCtx event eng.callerPkg, eng) :=
    ⟨rfl, fun g hg => .inl hg⟩
  unfold run
  rcases hr : execBlock invoke prog.stmts (startCtx event eng.callerPkg, eng) with ⟨f | u, ctx, e⟩
  · exact (hblock.error hstart hr).2
  · exact (hblock.ok hstart hr).2

end

section
variable [External]

def ByService (g : Lookup) : Prop := ∃ pkg svc, g.1 = .service pkg svc

theorem runBody_recorded {svc : Service} {base : List Lookup}
    (h : ∀ owner name args, Fallible.Maintains (Recorded ByService base) (fun _ => Recorded ByService base)
      (svc owner name args))
    {owner : Owner} {pkg name : String} {body : List Stmt} {args : Map} {e : Engine}
    (he : Recorded ByService base e) : Recorded ByService base (runBody (invokeBy svc) owner pkg name body args e).2 := by
  have hclosed : ExecClosed (StaysRunning ByService (.service pkg name) base) := execClosed_running fun _ => ⟨pkg, name, rfl⟩
  have hb : StaysRunning ByService (.service pkg name) base (execBlock (invokeBy svc) body) := execBlock_closed hclosed body
    fun _ => ⟨fun _ _ => invokeBy_running (h _ _ _), fun _ _ _ => .modify fun _ h => h⟩
  have hs : Running ByService (.service pkg name) base (⟨args.insert "event" (.object args), [], none, .service pkg name⟩,
      (e.log (.execute owner pkg name body)).enter pkg) := ⟨rfl, he⟩
  unfold runBody
  dsimp only
  rcases hr : execBlock (invokeBy svc) body
      (⟨args.insert "event" (.object args), [], none, .service pkg name⟩,
        (e.log (.execute owner pkg name body)).enter pkg) with ⟨f | _, ctx, e₁⟩
  · have hf := (hb.error hs hr).2
    cases f with
    | _ => exact hf
  · exact (hb.ok hs hr).2

theorem runService_recorded (fuel : Nat) (base : List Lookup) : ∀ owner name args,
    Fallible.Maintains (Recorded ByService base) (fun _ => Recorded ByService base) (runService fuel owner name args) := by
  induction fuel with
  | zero => exact fun _ _ _ _ he => he
  | succ fuel ih =>
    intro owner name args e he
    unfold runService
    by_cases hd : maxDepth ≤ e.depth
    · rw [if_pos hd]
      exact he
    rw [if_neg hd]
    -- looking the service up records no secret
    have hres := congrArg Engine.gets (Engine.resolve_invalidate (e.log (.resolve owner name)) name)
    rcases hx : (e.log (.resolve owner name)).resolve name with ⟨f | ⟨pkg, svc⟩, e₁⟩
    · rw [hx] at hres
      exact fun g hg => he g (hres ▸ hg)
    rw [hx] at hres
    have he₁ : Recorded ByService base e₁ := fun g hg => he g (hres ▸ hg)
    dsimp only
    have hload := congrArg Engine.gets (Engine.serviceStmts_invalidate e₁.descend pkg svc)
    rcases hst : e₁.descend.serviceStmts pkg svc with ⟨f | body, e₂⟩
    · rw [hst] at hload
      have he₂ : Recorded ByService base e₂ := fun g hg => he₁ g (hload ▸ hg)
      cases f with
      | _ => exact he₂
    · rw [hst] at hload
      have he₂ : Recorded ByService base e₂ := fun g hg => he₁ g (hload ▸ hg)
      dsimp only
      have hbody := @runBody_recorded _ _ _ ih owner pkg svc body args _ he₂
      rcases hrun : runBody (invokeBy (runService fuel)) owner pkg svc body args e₂ with ⟨f | r, e₃⟩
      · rw [hrun] at hbody
        exact hbody
      · rw [hrun] at hbody
        exact hbody

def Inventoried (refs : Refs) (pkg : String) (g : Lookup) : Prop := g.1 ≠ .program pkg ∨ ∃ v, (v, g.2) ∈ refs

theorem invoke_inventoried (refs : Refs) (pkg : String) (base : List Lookup) (name : String) (args : Map) :
    StaysRunning (Inventoried refs pkg) (.program pkg) base (invoke name args) := by
  refine invokeBy_running fun e he => ?_
  have hsvc := runService_recorded (maxDepth + 1) e.gets (.program pkg) name args
  have hby : ∀ {e' : Engine}, Recorded ByService e.gets e' → Recorded (Inventoried refs pkg) base e' := by
    intro e' h g hg
    rcases h g hg with hg | ⟨p, q, hg⟩
    · exact he g hg
    · exact .inr (.inl (by rw [hg]; nofun))
  rcases hr : runService (maxDepth + 1) (.program pkg) name args e with ⟨f | r, e'⟩
  · exact hby (hsvc.error (fun g hg => .inl hg) hr)
  · exact hby (hsvc.ok (fun g hg => .inl hg) hr)

theorem evalList_head {inv : Invoke} {args : List Expr} {s s' : Ctx × Engine} {vals : List Value}
    (h : evalList inv args s = (.ok vals, s')) (hlit : ∀ e, args.head? = some e → ∃ v, e = .lit v) {r : String}
    (hr : vals.head?.bind Value.asStr = some r) : ∃ rest, args = .lit (.string r) :: rest := by
  cases args with
  | nil =>
    cases h
    cases hr
  | cons e rest =>
    obtain ⟨v, rfl⟩ := hlit e rfl
    rw [evalList] at h
    obtain ⟨v', s₁, hv, hvals⟩ := Fallible.of_bind_ok h
    obtain ⟨vs, s₂, -, hvals⟩ := Fallible.of_bind_ok hvals
    rw [eval, Fallible.pure_run, Prod.mk.injEq, Except.ok.injEq] at hv
    rw [Fallible.pure_run, Prod.mk.injEq, Except.ok.injEq, ← hv.1] at hvals
    rw [← hvals.1] at hr
    cases v with
    | string t =>
      cases hr
      exact ⟨rest, rfl⟩
    | _ => cases hr

theorem call_running {ok : Lookup → Prop} {owner : Owner} {base : List Lookup} {inv : Invoke} {name : String}
    {args : List Expr} (hlit : name = "secret" → ∀ e, args.head? = some e → ∃ v, e = .lit v)
    (hok : ∀ r rest, name = "secret" → args = .lit (.string r) :: rest → ok (owner, r))
    (hargs : StaysRunning ok owner base (evalList inv args)) :
    StaysRunning ok owner base (evalList inv args >>= callBuiltin name) := by
  have hclosed : Fallible.Closed (StaysRunning ok owner base) := varsClosed_running.closed
  intro s hs
  rcases hrun : evalList inv args s with ⟨f | vals, s'⟩
  · rw [Fallible.bind_error hrun]
    exact hargs.error hs hrun
  have hcall : StaysRunning ok owner base (callBuiltin name vals) := by
    unfold callBuiltin
    by_cases hname : name = "secret"
    · rw [if_pos hname]
      cases hr : vals.head?.bind Value.asStr with
      | none => exact hclosed.throw _
      | some r =>
        obtain ⟨rest, hrest⟩ := evalList_head hrun (hlit hname) hr
        exact hclosed.bind (noteGet_running (hok r rest hname hrest)) fun _ => hclosed.reads _
    · rw [if_neg hname]
      exact hclosed.reads _
  rw [Fallible.bind_ok hrun]
  exact hcall s' (hargs.ok hs hrun)

theorem secretRefs_of_parse {src : String} {prog : Program} (h : parse src = .ok prog) :
    prog.secretRefs = walkStmts [] prog.stmts := by
  unfold parse parseBytes at h
  cases hlex : lex (bytesOf src) with
  | error f =>
    rw [hlex] at h
    cases h
  | ok toks =>
    rw [hlex] at h
    change (items ⟨toks, bytesOf src⟩ (parseFuel (bytesOf src)) {} 0 >>= _) = _ at h
    cases hitems : items ⟨toks, bytesOf src⟩ (parseFuel (bytesOf src)) {} 0 with
    | error f =>
      rw [hitems] at h
      cases h
    | ok r =>
      rw [hitems] at h
      cases h
      rfl

theorem run_inventoried {prog : Program} (hrefs : prog.secretRefs = walkStmts [] prog.stmts)
    (hnames : NamesSecrets prog.stmts) (event : Value) (eng : Engine) :
    Recorded (Inventoried prog.secretRefs eng.callerPkg) eng.gets (run prog event eng).2 := by
  refine run_recorded (fun name _ _ => invoke_inventoried _ _ _ name) fun c hc => ?_
  cases c with
  | invoke name args => exact invoke_inventoried _ _ _ name
  | call name args =>
    refine call_running (fun hname => ?_) fun r rest hname hargs => .inr ?_
    · subst hname
      exact hnames args hc
    · subst hname hargs
      rw [hrefs]
      exact walkStmts_secret hc []
  | _ => trivial

def InvokesNothing (ss : List Stmt) : Prop :=
  ∀ name args, ¬ ExprIn (.invoke name args) ss ∧ ¬ StmtIn (.invokeMerge name args) ss

theorem run_own {prog : Program} (h : InvokesNothing prog.stmts) (event : Value) (eng : Engine) :
    Recorded (fun g => g.1 = .program eng.callerPkg) eng.gets (run prog event eng).2 := by
  have hclosed : ExecClosed (StaysRunning (fun g => g.1 = .program eng.callerPkg) (.program eng.callerPkg) eng.gets) :=
    execClosed_running fun _ => rfl
  refine run_recorded (fun name args ht => absurd ht (h name args).2) fun c hc => ?_
  cases c with
  | invoke name args => exact absurd hc (h name args).1
  | call name args =>
    exact fun hargs => hclosed.closed.bind hargs fun vals => callBuiltin_closed hclosed.toEval name vals
  | _ => trivial

end

end Vejas.Vjs
