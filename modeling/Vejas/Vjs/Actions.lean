import Vejas.Vjs.Frame
import Vejas.Vjs.Order
import Vejas.Vjs.Rules

/-! What a rule says its arm does, against what the arm does in a run. The subjects of a rule come
from the text of the flow; a run takes them from the pipeline, and adds the emits of services. -/

namespace Vejas.Vjs
open Json Rust Run

def subjectsOf (actions : List String) : List String := actions.filterMap (stripStart · "→ ")

def listedSubjects (rule : Value) : List String :=
  subjectsOf (((rule.index "then").asArray.getD []).filterMap Value.asStr)

def branches (arms : List (Expr × Span × List Stmt)) (otherwise : Option (List Stmt)) : List (List Stmt) :=
  arms.map (·.2.2) ++ otherwise.toList

theorem subjectsOf_append (l l' : List String) : subjectsOf (l ++ l') = subjectsOf l ++ subjectsOf l' :=
  List.filterMap_append

theorem subjectsOf_arrow (s : String) : subjectsOf ["→ " ++ s] = [s] := by
  have hstrip : stripStart ("→ " ++ s) "→ " = some s := (stripStart_eq_some_iff _ _ _).mpr rfl
  simp [subjectsOf, hstrip]

theorem subjectsOf_respond {act : String} {cs : List Char} (h : act.toList = 'r' :: cs) : subjectsOf [act] = [] := by
  have hstrip : stripStart act "→ " = none := by
    rw [Option.eq_none_iff_forall_not_mem]
    intro t ht
    have htext := congrArg String.toList ((stripStart_eq_some_iff _ _ _).mp ht)
    rw [h, String.toList_append] at htext
    cases htext
  simp [subjectsOf, hstrip]

theorem projected_then (kind : String) (sentence : Value) (action literals : List String) :
    (projected kind sentence action literals).index "then" = strings action := by
  simp [projected, Value.obj, Value.index, Value.get, Value.asObject, Map.ofEntries, Map.extend, Map.get?_insert]

theorem unprojected_projectable (kind raw : String) :
    (unprojected kind raw).index "projectable" = .bool false := by
  simp [unprojected, Value.obj, Value.index, Value.get, Value.asObject, Map.ofEntries, Map.extend, Map.get?_insert]

theorem listedSubjects_projected (kind : String) (sentence : Value) (action literals : List String) :
    listedSubjects (projected kind sentence action literals) = subjectsOf action := by
  unfold listedSubjects
  rw [projected_then]
  show subjectsOf ((action.map Value.string).filterMap Value.asStr) = _
  rw [List.filterMap_map]
  exact congrArg subjectsOf List.filterMap_some

section
variable [External]

theorem renderAction_of_armRule {src kind : String} {surface : List SurfaceEntry}
    {arm : Expr × Span × List Stmt} (h : (armRule src surface kind arm).index "projectable" = .bool true) :
    ∃ action, renderAction surface arm.2.2 = some action ∧
      listedSubjects (armRule src surface kind arm) = subjectsOf action := by
  unfold armRule at h ⊢
  split at h
  next sentence literals action _ haction => exact ⟨action, haction, listedSubjects_projected _ _ _ _⟩
  next =>
    rw [unprojected_projectable] at h
    cases h

theorem renderAction_of_elseRule {surface : List SurfaceEntry} {body : List Stmt}
    (h : (elseRule surface body).index "projectable" = .bool true) :
    ∃ action, renderAction surface body = some action ∧ listedSubjects (elseRule surface body) = subjectsOf action := by
  unfold elseRule at h ⊢
  split at h
  next action haction => exact ⟨action, haction, listedSubjects_projected _ _ _ _⟩
  next =>
    rw [unprojected_projectable] at h
    cases h

theorem length_armRules (src : String) (surface : List SurfaceEntry) (arms : List (Expr × Span × List Stmt)) :
    (armRules src surface arms).length = arms.length := by
  cases arms with
  | nil => rfl
  | cons arm arms => simp [armRules]

theorem rule_of_flowRules {prog : Program} {src : String} {surface : List SurfaceEntry} {pre post : List Stmt}
    {arms : List (Expr × Span × List Stmt)} {otherwise : Option (List Stmt)} {i : Nat} {rule : Value}
    {body : List Stmt} (hstmts : prog.stmts = pre ++ .ite arms otherwise :: post)
    (hbody : (branches arms otherwise)[i]? = some body)
    (hrule : (flowRules prog src surface)[(pre.flatMap (stmtRules src surface)).length + i]? = some rule) :
    (stmtRules src surface (.ite arms otherwise))[i]? = some rule := by
  have hi : i < (stmtRules src surface (.ite arms otherwise)).length := by
    obtain ⟨hi, -⟩ := List.getElem?_eq_some_iff.mp hbody
    unfold branches at hi
    unfold stmtRules
    cases otherwise with
    | none => simpa [length_armRules] using hi
    | some o => simpa [length_armRules] using hi
  unfold flowRules at hrule
  rw [hstmts, List.flatMap_append, List.getElem?_append_right (Nat.le_add_right _ _), Nat.add_sub_cancel_left,
    List.flatMap_cons, List.getElem?_append_left hi] at hrule
  exact hrule

theorem renderAction_of_rule {src : String} {surface : List SurfaceEntry} {arms : List (Expr × Span × List Stmt)}
    {otherwise : Option (List Stmt)} {i : Nat} {rule : Value} {body : List Stmt}
    (hrule : (stmtRules src surface (.ite arms otherwise))[i]? = some rule)
    (hbody : (branches arms otherwise)[i]? = some body) (hproj : rule.index "projectable" = .bool true) :
    ∃ action, renderAction surface body = some action ∧ listedSubjects rule = subjectsOf action := by
  unfold stmtRules at hrule
  unfold branches at hbody
  by_cases hi : i < arms.length
  · rw [List.getElem?_append_left (by rwa [length_armRules])] at hrule
    rw [List.getElem?_append_left (by rwa [List.length_map]), List.getElem?_map] at hbody
    cases arms with
    | nil => cases hrule
    | cons arm arms =>
      cases i with
      | zero =>
        cases hrule
        cases hbody
        exact renderAction_of_armRule hproj
      | succ i =>
        have hrule' : (arms.map (armRule src surface "elif"))[i]? = some rule := hrule
        have hbody' : (arms[i]?).map (·.2.2) = some body := hbody
        rw [List.getElem?_map] at hrule'
        cases harm : arms[i]? with
        | none =>
          rw [harm] at hrule'
          cases hrule'
        | some arm' =>
          rw [harm] at hrule' hbody'
          cases hrule'
          cases hbody'
          exact renderAction_of_armRule hproj
  · have hi' : arms.length ≤ i := Nat.le_of_not_lt hi
    rw [List.getElem?_append_right (by rwa [length_armRules]), length_armRules] at hrule
    rw [List.getElem?_append_right (by rwa [List.length_map]), List.length_map] at hbody
    cases otherwise with
    | none => cases hbody
    | some body' =>
      cases hj : i - arms.length with
      | zero =>
        rw [hj] at hrule hbody
        cases hrule
        cases hbody
        exact renderAction_of_elseRule hproj
      | succ j =>
        rw [hj] at hbody
        cases hbody

/-- From `s` the guards before branch `i` are false and its own holds, which leads to the state at its body. -/
inductive Takes : List (Expr × Span × List Stmt) → Option (List Stmt) → State → Nat → State → Prop
  | here {c span body arms o s v s'} : eval invoke c s = (.ok v, s') → truthy v = true →
      Takes ((c, span, body) :: arms) o s 0 s'
  | next {c span body arms o s v s₁ i s'} : eval invoke c s = (.ok v, s₁) → truthy v = false →
      Takes arms o s₁ i s' → Takes ((c, span, body) :: arms) o s (i + 1) s'
  | orElse {body s} : Takes [] (some body) s 0 s

theorem execStmt_of_takes {arms : List (Expr × Span × List Stmt)} {o : Option (List Stmt)} {s s' : State} {i : Nat}
    {body : List Stmt} (h : Takes arms o s i s') (hbody : (branches arms o)[i]? = some body) :
    execStmt invoke (.ite arms o) s = execBlock invoke body s' := by
  show execArms invoke (execElse invoke o) arms s = _
  induction h with
  | here hc ht =>
    cases hbody
    unfold execArms
    rw [Fallible.bind_ok hc, if_pos ht]
  | next hc ht _ ih =>
    unfold execArms
    rw [Fallible.bind_ok hc, if_neg (by rw [ht]; decide)]
    exact ih hbody
  | orElse =>
    cases hbody
    rfl

def AllSteps (C : Stmt → State → Prop) : List Stmt → State → Prop
  | [], _ => True
  | t :: ts, s => C t s ∧ ∀ s', execStmt invoke t s = (.ok (), s') → AllSteps C ts s'

def CallsQuietly (t : Stmt) (s : State) : Prop :=
  ∀ s' acts, execStmt invoke t s = (.ok (), s') → Performs t s s' acts → ∀ c, .call c ∈ acts → c.emits = []

/-- Where the subject of an emit is a name, the pipeline has the string that the surface lists for it. -/
def FindsListed (surface : List SurfaceEntry) (t : Stmt) (s : State) : Prop :=
  ∀ n payload, t = .emit (.var n) payload → s.1.vars.get? n = (resolveSubject surface (.var n)).map .string

omit [External] in
theorem emitsOf_steps_eq_nil {l : List Served} : emitsOf (Steps l) = [] ↔ ∀ c, .call c ∈ Steps l → c.emits = [] := by
  induction l with
  | nil => simp [Steps, emitsOf]
  | cons c l ih =>
    have hcons : emitsOf (Steps (c :: l)) = c.emits ++ emitsOf (Steps l) := rfl
    rw [hcons, List.append_eq_nil_iff, ih]
    simp [Steps]

theorem Evals.of_var {n : String} {s s' : State} {v : Value} {l : List Served} (h : Evals (.var n) s v s' l) :
    v = (s.1.vars.get? n).getD .null := by
  cases h
  rfl

theorem Evals.of_lit {v w : Value} {s s' : State} {l : List Served} (h : Evals (.lit v) s w s' l) : w = v := by
  cases h
  rfl

theorem subject_iff {surface : List SurfaceEntry} {subject payload : Expr} {s s' : State} {t r : String} {l : List Served}
    (hr : resolveSubject surface subject = some r) (he : Evals subject s (.string t) s' l) :
    t = r ↔ FindsListed surface (.emit subject payload) s := by
  unfold resolveSubject at hr
  split at hr
  next r' =>
    cases hr
    cases he.of_lit
    exact iff_of_true rfl nofun
  next n =>
    have hval := he.of_var
    have hget : s.1.vars.get? n = some (.string t) := by
      cases hv : s.1.vars.get? n with
      | none =>
        rw [hv] at hval
        cases hval
      | some v =>
        rw [hv] at hval
        exact congrArg some hval.symm
    have hlisted : resolveSubject surface (.var n) = some r := hr
    constructor
    · rintro rfl _ _ ⟨⟩
      rw [hget, hlisted]
      rfl
    · intro h
      have hsame := h n payload rfl
      rw [hget, hlisted] at hsame
      cases hsame
      rfl
  next => cases hr

theorem Performs.shown {surface : List SurfaceEntry} {t : Stmt} {a : List String} {s s' : State} {acts : List Act}
    (ha : renderStmt surface t = some a) (hp : Performs t s s' acts) :
    (∃ l, acts = Steps l ∧ subjectsOf a = [] ∧ FindsListed surface t s) ∨
      ∃ l m r, acts = Steps l ++ [.emit m] ∧ subjectsOf a = [r] ∧ (m.1 = r ↔ FindsListed surface t s) := by
  cases hp with
  | assign _ _ =>
    cases ha
    exact .inl ⟨_, rfl, rfl, nofun⟩
  | invokeMerge _ _ =>
    cases ha
    exact .inl ⟨_, rfl, rfl, nofun⟩
  | ite _ => cases ha
  | loop _ _ => cases ha
  | emit hsubject _ _ =>
    obtain ⟨r, hr, ha⟩ := Option.bind_eq_some_iff.mp ha
    cases ha
    exact .inr ⟨_, _, r, rfl, subjectsOf_arrow r, subject_iff hr hsubject⟩
  | @respond status =>
    refine .inl ⟨_, rfl, ?_, nofun⟩
    cases status with
    | lit v =>
      cases ha
      exact subjectsOf_respond (String.toList_append ..)
    | _ =>
      cases ha
      exact subjectsOf_respond rfl

theorem Performs.listed_iff {surface : List SurfaceEntry} {t : Stmt} {a : List String} {s s' : State} {acts : List Act}
    (ha : renderStmt surface t = some a) (hp : Performs t s s' acts) :
    (subjectsOf a).length ≤ (emitsOf acts).length ∧
      ((emitsOf acts).map (·.1) = subjectsOf a ↔ (∀ c, .call c ∈ acts → c.emits = []) ∧ FindsListed surface t s) := by
  rcases hp.shown ha with ⟨l, rfl, hnone, hfinds⟩ | ⟨l, m, r, rfl, hone, hiff⟩
  · rw [hnone, List.map_eq_nil_iff, emitsOf_steps_eq_nil]
    exact ⟨Nat.zero_le _, fun h => ⟨h, hfinds⟩, fun h => h.1⟩
  · rw [hone, emitsOf_append, ← hiff]
    have hown : emitsOf [.emit m] = [m] := rfl
    have hcalls : (∀ c, Act.call c ∈ Steps l ++ [.emit m] → c.emits = []) ↔ emitsOf (Steps l) = [] := by
      rw [emitsOf_steps_eq_nil]
      simp
    rw [hcalls, hown, List.map_append, List.length_append]
    refine ⟨Nat.le_add_left _ _, fun h => ?_, fun h => ?_⟩
    · cases hl : emitsOf (Steps l) with
      | nil =>
        rw [hl] at h
        exact ⟨rfl, (List.cons.inj h).1⟩
      | cons m' ms =>
        rw [hl] at h
        have hlen := congrArg List.length h
        simp at hlen
    · rw [h.1, ← h.2]
      rfl

theorem listed_iff_allSteps {surface : List SurfaceEntry} : ∀ {body : List Stmt} {acts : List String} {s s' : State},
    renderStmts surface body = some acts → execBlock invoke body s = (.ok (), s') →
      ∃ new, s'.1.emits = s.1.emits ++ new ∧ (subjectsOf acts).length ≤ new.length ∧
        (new.map (·.1) = subjectsOf acts ↔ AllSteps (fun t s => CallsQuietly t s ∧ FindsListed surface t s) body s)
  | [], _, s, s', ha, hrun => by
    cases ha
    cases hrun
    exact ⟨[], (List.append_nil _).symm, Nat.le_refl _, iff_of_true rfl trivial⟩
  | t :: body, acts, s, s', ha, hrun => by
    obtain ⟨a, ht, ha⟩ := Option.bind_eq_some_iff.mp ha
    obtain ⟨rest, hbody, ha⟩ := Option.bind_eq_some_iff.mp ha
    cases ha
    obtain ⟨_, s₁, hstep, hrest⟩ := Fallible.of_bind_ok hrun
    obtain ⟨new, hnew, hlen, hiff⟩ := listed_iff_allSteps hbody hrest
    obtain ⟨first, hfirst⟩ := performs_of_run (calls_runService _) hstep
    have hlen₁ := (hfirst.listed_iff ht).1
    refine ⟨emitsOf first ++ new, ?_, ?_, ?_⟩
    · rw [hnew, hfirst.grows.1, List.append_assoc]
    · rw [subjectsOf_append, List.length_append, List.length_append]
      exact Nat.add_le_add hlen₁ hlen
    · rw [subjectsOf_append, List.map_append]
      constructor
      · intro h
        -- neither half can be shorter than what it lists
        have htotal := congrArg List.length h
        rw [List.length_append, List.length_append, List.length_map, List.length_map] at htotal
        obtain ⟨h₁, h₂⟩ := List.append_inj h (by rw [List.length_map]; omega)
        refine ⟨⟨fun s₁' acts hstep' hperf => ?_, ((hfirst.listed_iff ht).2.mp h₁).2⟩, fun s₁' hstep' => ?_⟩
        · rw [hstep] at hstep'
          cases hstep'
          have hsame : emitsOf acts = emitsOf first :=
            List.append_cancel_left (hperf.grows.1.symm.trans hfirst.grows.1)
          rw [← hsame] at h₁
          exact ((hperf.listed_iff ht).2.mp h₁).1
        · rw [hstep] at hstep'
          cases hstep'
          exact hiff.mp h₂
      · rintro ⟨⟨hquiet, hfinds⟩, hall⟩
        rw [(hfirst.listed_iff ht).2.mpr ⟨hquiet _ _ hstep hfirst, hfinds⟩, hiff.mpr (hall _ hstep)]

def StmtWrites (n : String) : Stmt → Prop
  | .assign path _ => path.head? = some n
  | .loop x _ _ => x = n
  | .invokeMerge _ _ => True
  | _ => False

def Rewrites (n : String) (ss : List Stmt) : Prop := ∃ t, StmtIn t ss ∧ StmtWrites n t

/-- Before an emit that names a constant the flow assigns it the listed string, and then leaves it. -/
def Settled (surface : List SurfaceEntry) (pre body : List Stmt) : Prop :=
  ∀ done n payload rest, body = done ++ .emit (.var n) payload :: rest →
    ∃ t earlier later, resolveSubject surface (.var n) = some t ∧
      pre ++ done = earlier ++ .assign [n] (.lit (.string t)) :: later ∧ ¬ Rewrites n later

def Spares (n : String) {α : Type} (m : Run α) : Prop :=
  ∀ s a s', m s = (.ok a, s') → s'.1.vars.get? n = s.1.vars.get? n

omit [External] in
theorem spares_kept (n : String) : ExecKept (Spares n) where
  toEval := {
    closed := {
      reads := by
        intro α f s a s' hrun
        have hsame : s = s' := congrArg Prod.snd hrun
        rw [hsame]
      bind := by
        intro α β m f hm hf s b s' hrun
        obtain ⟨a, s₁, hmrun, hfrun⟩ := Fallible.of_bind_ok hrun
        rw [hf a _ _ _ hfrun, hm _ _ _ hmrun] }
    shadowing := by
      rintro α fields m hm ⟨c, eng⟩ a s' hrun
      obtain ⟨saved, s₁, hvars, hrun⟩ := Fallible.of_bind_ok hrun
      cases hvars
      obtain ⟨_, s₂, hset, hrun⟩ := Fallible.of_bind_ok hrun
      cases hset
      obtain ⟨b, ⟨c₃, eng₃⟩, hbody, hrun⟩ := Fallible.of_bind_ok hrun
      obtain ⟨_, s₄, hback, hrun⟩ := Fallible.of_bind_ok hrun
      cases hback
      cases hrun
      exact get?_shadowed fields c.vars (hm _ _ _ hbody) }
  setResponse r := by
    intro s a s' hrun
    cases hrun
    rfl

omit [External] in
theorem spares_evalClosed (n : String) : EvalClosed (Spares n) where
  closed := (spares_kept n).closed
  noteGet reference := by
    intro s a s' hrun
    cases hrun
    rfl
  shadowing := (spares_kept n).toEval.shadowing

theorem spares_invoke (n name : String) (args : Map) : Spares n (invoke name args) :=
  fun _ _ _ hrun => (framed_invoke name args _ _ _ hrun).vars n

theorem spares_eval (n : String) (e : Expr) : Spares n (eval invoke e) :=
  eval_closed (spares_evalClosed n) e fun _ => spares_invoke n

omit [External] in
theorem spares_assign {n : String} {path : List String} (h : path.head? ≠ some n) (v : Value) : Spares n (assign path v) := by
  intro s a s' hrun
  cases path with
  | nil => cases hrun
  | cons k ks =>
    have hk : k ≠ n := fun he => h (congrArg some he)
    cases ks with
    | nil =>
      cases hrun
      exact (Map.get?_insert _ _ _ _).trans (if_neg hk)
    | cons k' ks =>
      cases hrun
      exact (Map.get?_insert _ _ _ _).trans (if_neg hk)

theorem spares_block {n : String} {ss : List Stmt} (h : ¬ Rewrites n ss) : Spares n (execBlock invoke ss) := by
  refine execBlock_of_leaves (spares_kept n) ⟨fun t ht => ?_, fun c hc => ?_⟩ ss fun r hr => ⟨r, hr, .refl⟩
  · have hwrites : ¬ StmtWrites n t := fun hw => h ⟨t, ht, hw⟩
    cases t with
    | assign path e => exact spares_assign hwrites
    | loop x iter body =>
      intro item s a s' hrun
      cases hrun
      exact (Map.get?_insert _ _ _ _).trans (if_neg hwrites)
    | invokeMerge name args => exact absurd trivial hwrites
    | emit subject payload =>
      intro subject v _ s a s' hrun
      cases hrun
      rfl
    | _ => trivial
  · exact exprLeaf_closed (spares_evalClosed n) (fun _ => spares_invoke n) c .refl

theorem Takes.spares {n : String} {arms : List (Expr × Span × List Stmt)} {o : Option (List Stmt)} {s s' : State} {i : Nat}
    (h : Takes arms o s i s') : s'.1.vars.get? n = s.1.vars.get? n := by
  induction h with
  | here hc _ => exact spares_eval n _ _ _ _ hc
  | next hc _ _ ih => rw [ih, spares_eval n _ _ _ _ hc]
  | orElse => rfl

theorem execBlock_append (inv : Invoke) (ss ts : List Stmt) (s : State) :
    execBlock inv (ss ++ ts) s = (execBlock inv ss >>= fun _ => execBlock inv ts) s := by
  induction ss generalizing s with
  | nil => rfl
  | cons t ss ih =>
    show (execStmt inv t >>= fun _ => execBlock inv (ss ++ ts)) s =
      ((execStmt inv t >>= fun _ => execBlock inv ss) >>= fun _ => execBlock inv ts) s
    rcases ht : execStmt inv t s with ⟨_ | _, s₁⟩
    · rw [Fallible.bind_error ht, Fallible.bind_error (Fallible.bind_error ht)]
    · rw [Fallible.bind_ok ht, ih, Fallible.bind_run, Fallible.bind_run, Fallible.bind_ok ht]

theorem get?_of_assigned {n : String} {v : Value} {earlier later : List Stmt} {s s' : State}
    (hrun : execBlock invoke (earlier ++ .assign [n] (.lit v) :: later) s = (.ok (), s')) (hlater : ¬ Rewrites n later) :
    s'.1.vars.get? n = some v := by
  rw [execBlock_append] at hrun
  obtain ⟨_, s₁, -, hrun⟩ := Fallible.of_bind_ok hrun
  obtain ⟨_, s₂, hassign, hrun⟩ := Fallible.of_bind_ok hrun
  cases hassign
  rw [spares_block hlater _ _ _ hrun]
  exact (Map.get?_insert _ _ _ _).trans (if_pos rfl)

theorem get?_of_settled {n : String} {v : Value} {pre done earlier later : List Stmt} {s s₀ s₁ s' : State}
    {arms : List (Expr × Span × List Stmt)} {o : Option (List Stmt)} {i : Nat}
    (hpre : execBlock invoke pre s = (.ok (), s₀)) (htakes : Takes arms o s₀ i s₁)
    (hdone : execBlock invoke done s₁ = (.ok (), s'))
    (hsplit : pre ++ done = earlier ++ .assign [n] (.lit v) :: later) (hlater : ¬ Rewrites n later) :
    s'.1.vars.get? n = some v := by
  rcases List.append_eq_append_iff.mp hsplit with ⟨mid, rfl, rfl⟩ | ⟨mid, rfl, hmid⟩
  · exact get?_of_assigned hdone hlater
  · cases mid with
    | nil =>
      have hdone' : done = [] ++ .assign [n] (.lit v) :: later := hmid.symm
      rw [hdone'] at hdone
      exact get?_of_assigned hdone hlater
    | cons t mid =>
      obtain ⟨rfl, rfl⟩ := List.cons.inj hmid
      have hmid' : ¬ Rewrites n mid := by
        rintro ⟨t, ⟨u, hu, hnest⟩, hw⟩
        exact hlater ⟨t, ⟨u, List.mem_append_left _ hu, hnest⟩, hw⟩
      have hdone' : ¬ Rewrites n done := by
        rintro ⟨t, ⟨u, hu, hnest⟩, hw⟩
        exact hlater ⟨t, ⟨u, List.mem_append_right _ hu, hnest⟩, hw⟩
      rw [spares_block hdone' _ _ _ hdone, htakes.spares, get?_of_assigned hpre hmid']

theorem finds_of_settled {surface : List SurfaceEntry} {pre body : List Stmt} {s s₀ s₁ : State}
    {arms : List (Expr × Span × List Stmt)} {o : Option (List Stmt)} {i : Nat} (h : Settled surface pre body)
    (hpre : execBlock invoke pre s = (.ok (), s₀)) (htakes : Takes arms o s₀ i s₁) :
    ∀ rest done s', body = done ++ rest → execBlock invoke done s₁ = (.ok (), s') →
      AllSteps (FindsListed surface) rest s'
  | [], _, _, _, _ => trivial
  | t :: rest, done, s', hbody, hdone => by
    refine ⟨fun n payload ht => ?_, fun s₂ hstep => ?_⟩
    · rw [ht] at hbody
      obtain ⟨r, earlier, later, hr, hsplit, hlater⟩ := h done n payload rest hbody
      rw [hr, get?_of_settled hpre htakes hdone hsplit hlater]
      rfl
    · refine finds_of_settled h hpre htakes rest (done ++ [t]) s₂ (by rw [hbody, List.append_assoc]; rfl) ?_
      rw [execBlock_append, Fallible.bind_ok hdone]
      exact Fallible.bind_ok hstep

/-- Between the two states the run emitted on the subjects that the rule lists, in their order. -/
def EmitsListed (rule : Value) (s s' : State) : Prop :=
  ∃ new, s'.1.emits = s.1.emits ++ new ∧ new.map (·.1) = listedSubjects rule

/-- The rule of a branch that runs to its end lists what the branch emits exactly if no service it calls
emits, and each of its emits that names a constant finds the listed string there. That is so where the
flow assigns that string to the constant before the emit and nothing between can rewrite it. -/
theorem rule_actions_complete {prog : Program} {src : String} {event : Value} {eng : Engine} {pre post : List Stmt}
    {arms : List (Expr × Span × List Stmt)} {otherwise : Option (List Stmt)} {i : Nat} {rule : Value}
    {body : List Stmt} {s₀ s₁ s₂ : State} (hstmts : prog.stmts = pre ++ .ite arms otherwise :: post)
    (hbody : (branches arms otherwise)[i]? = some body)
    (hrule : (flowRules prog src prog.surface)[(pre.flatMap (stmtRules src prog.surface)).length + i]? = some rule)
    (hproj : rule.index "projectable" = .bool true)
    (hpre : execBlock invoke pre (startCtx event eng.callerPkg, eng) = (.ok (), s₀))
    (htakes : Takes arms otherwise s₀ i s₁) (hrun : execStmt invoke (.ite arms otherwise) s₀ = (.ok (), s₂)) :
    (EmitsListed rule s₁ s₂ ↔ AllSteps (fun t s => CallsQuietly t s ∧ FindsListed prog.surface t s) body s₁) ∧
      (Settled prog.surface pre body → AllSteps (FindsListed prog.surface) body s₁) := by
  refine ⟨?_, fun h => finds_of_settled h hpre htakes body [] s₁ rfl rfl⟩
  rw [execStmt_of_takes htakes hbody] at hrun
  obtain ⟨action, haction, hlisted⟩ := renderAction_of_rule (rule_of_flowRules hstmts hbody hrule) hbody hproj
  obtain ⟨acts, hacts, haction⟩ := Option.bind_eq_some_iff.mp haction
  split at haction
  · cases haction
  · cases haction
    obtain ⟨new, hnew, -, hiff⟩ := listed_iff_allSteps hacts hrun
    rw [← hiff, ← hlisted]
    constructor
    · rintro ⟨new', hnew', hsubjects⟩
      rwa [List.append_cancel_left (hnew.symm.trans hnew')]
    · exact fun h => ⟨new, hnew, h⟩

end

def outBody (name : String) : List Stmt :=
  [.assign [name] (.lit (.string "vx.small")), .emit (.var "OUT") (.var "event")]

def outArms (name : String) : List (Expr × Span × List Stmt) :=
  [(.bin .eq (.field (.var "event") "kind" false) (.lit (.string "o")), (18, 35), outBody name)]

def outFlow (name : String) : Program where
  source := none
  tool := none
  api := none
  driver := none
  stmts := [.assign ["OUT"] (.lit (.string "vx.big")), .ite (outArms name) none]
  surface := [⟨"OUT", .string "vx.big", (6, 14), []⟩]
  emitSubjects := ["vx.big"]
  invokes := []
  secretRefs := []

def outRule : Value := projected "if" (.string "event.kind = \"o\"") ["→ vx.big"] []

def outEvent : Value := .object [("kind", .string "o")]

def outState (vars : Map) (emits : List Emit) : State :=
  (⟨vars, emits, none, .program "default"⟩, idle)

def atArm : State :=
  outState [("OUT", .string "vx.big"), ("event", outEvent), ("kind", .string "o")] []

theorem takes_out (name : String) : @Takes ascii (outArms name) none atArm 0 atArm :=
  @Takes.here ascii _ _ _ _ _ _ (.bool true) _ rfl rfl

theorem settled_tag : Settled (outFlow "tag").surface [.assign ["OUT"] (.lit (.string "vx.big"))] (outBody "tag") := by
  intro done n payload rest hbody
  rcases done with _ | ⟨t, _ | ⟨t', done⟩⟩
  · cases hbody
  · cases hbody
    refine ⟨"vx.big", [], [.assign ["tag"] (.lit (.string "vx.small"))], rfl, rfl, ?_⟩
    rintro ⟨t, ⟨u, hu, hnest⟩, hw⟩
    cases List.mem_singleton.mp hu
    rcases hnest.cases_tail with heq | ⟨m, -, hm⟩
    · cases heq
      exact absurd (Option.some.inj hw) (by decide)
    · cases hm
  · have hlen := congrArg List.length hbody
    simp [outBody] at hlen

theorem rule_actions_complete_tag :
    (@flowRules ascii (outFlow "tag") "" (outFlow "tag").surface)[0]? = some outRule ∧
      @AllSteps ascii (FindsListed (outFlow "tag").surface) (outBody "tag") atArm ∧
      ∃ s₂, (@execStmt ascii (@invoke ascii) (.ite (outArms "tag") none) atArm = (.ok (), s₂)) ∧
        EmitsListed outRule atArm s₂ ∧ @AllSteps ascii
          (fun t s => @CallsQuietly ascii t s ∧ FindsListed (outFlow "tag").surface t s) (outBody "tag") atArm := by
  have hrule := @rule_actions_complete ascii (outFlow "tag") "" outEvent idle [.assign ["OUT"] (.lit (.string "vx.big"))] []
    (outArms "tag") none 0 outRule (outBody "tag") atArm atArm _ rfl rfl rfl rfl rfl (takes_out "tag") rfl
  have hlisted : EmitsListed outRule atArm (outState [("OUT", .string "vx.big"), ("event", outEvent),
      ("kind", .string "o"), ("tag", .string "vx.small")] [("vx.big", outEvent)]) := ⟨_, rfl, rfl⟩
  exact ⟨rfl, hrule.2 settled_tag, _, rfl, hlisted, hrule.1.mp hlisted⟩

def swapText : String :=
  "OUT = \"vx.big\"\nif event.kind == \"o\":\n  OUT = \"vx.small\"\n  emit OUT, event\nend\n"

/-- The rule lists the constant of the surface, the arm emits on the value it has just given it. -/
theorem rule_actions_miss_assignment :
    (∃ prog, @parse ascii swapText = .ok prog ∧
      (@flowRules ascii prog swapText prog.surface).map (fun rule => ((rule.index "projectable").asBool, listedSubjects rule)) =
        [(some true, ["vx.big"])] ∧
      (@run ascii prog outEvent idle).1.toOption.map (fun ctx => ctx.emits.map (·.1)) = some ["vx.small"]) ∧
    ∃ s₂, (@execStmt ascii (@invoke ascii) (.ite (outArms "OUT") none) atArm = (.ok (), s₂)) ∧ ¬ EmitsListed outRule atArm s₂ := by
  constructor
  · have hfacts : (@parse ascii swapText).toOption.map (fun prog =>
        ((@flowRules ascii prog swapText prog.surface).map
          (fun rule => ((rule.index "projectable").asBool, listedSubjects rule)),
        (@run ascii prog outEvent idle).1.toOption.map fun ctx => ctx.emits.map (·.1))) =
        some ([(some true, ["vx.big"])], some ["vx.small"]) := by
      decide +kernel
    obtain ⟨prog, hprog, hboth⟩ := Option.map_eq_some_iff.mp hfacts
    obtain ⟨hrules, hemits⟩ := Prod.mk.inj hboth
    refine ⟨prog, ?_, hrules, hemits⟩
    cases hparse : @parse ascii swapText with
    | error f =>
      rw [hparse] at hprog
      cases hprog
    | ok prog' =>
      rw [hparse] at hprog
      cases hprog
      rfl
  · refine ⟨_, rfl, ?_⟩
    rintro ⟨new, hnew, hsubjects⟩
    cases hnew
    exact absurd hsubjects (by decide)

end Vejas.Vjs
