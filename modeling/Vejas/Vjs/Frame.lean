import Vejas.Json.Reading
import Vejas.Vjs.Induction

/-! What an expression leaves alone. Evaluation that succeeds puts every variable back, answers
nothing and only adds to the emits. -/

namespace Vejas.Vjs
open Json Rust Run

structure Ctx.Kept (c c' : Ctx) : Prop where
  vars : ∀ name, c'.vars.get? name = c.vars.get? name
  ordered : c.vars.Ordered → c'.vars.Ordered
  response : c'.response = c.response
  emits : c.emits <+: c'.emits

theorem Ctx.Kept.refl (c : Ctx) : c.Kept c :=
  ⟨fun _ => rfl, fun h => h, rfl, List.prefix_rfl⟩

theorem Ctx.Kept.trans {a b c : Ctx} (h : a.Kept b) (h' : b.Kept c) : a.Kept c where
  vars name := (h'.vars name).trans (h.vars name)
  ordered ho := h'.ordered (h.ordered ho)
  response := h'.response.trans h.response
  emits := h.emits.trans h'.emits

theorem Ctx.Kept.vars_eq {c c' : Ctx} (h : c.Kept c') (ho : c.vars.Ordered) : c'.vars = c.vars :=
  Map.Ordered.ext (h.ordered ho) ho h.vars

/-- A success of `m` leaves the pipeline with more emits at most. -/
def Framed {α : Type} (m : Run α) : Prop := ∀ s a s', m s = (.ok a, s') → s.1.Kept s'.1

def putBack (saved vs : Map) (p : String × Value) : Map :=
  match saved.get? p.1 with
  | some v => vs.insert p.1 v
  | none => vs.remove p.1

theorem get?_putBack (saved vs : Map) (p : String × Value) (k : String) :
    (putBack saved vs p).get? k = if p.1 = k then saved.get? k else vs.get? k := by
  unfold putBack
  split
  next v hv =>
    rw [Map.get?_insert]
    split
    next h => rw [← h, hv]
    next => rfl
  next hn =>
    rw [Map.get?_remove]
    split
    next h => rw [← h, hn]
    next => rfl

theorem Map.Ordered.remove {m : Map} (h : Map.Ordered m) (k : String) : Map.Ordered (Map.remove m k) :=
  List.Pairwise.filter _ h

theorem ordered_putBack {saved vs : Map} (h : vs.Ordered) (p : String × Value) :
    (putBack saved vs p).Ordered := by
  unfold putBack
  split
  · exact h.insert _ _
  · exact Map.Ordered.remove h _

theorem get?_foldl_putBack (saved : Map) (k : String) : ∀ (fields vs : Map),
    (fields.foldl (putBack saved) vs).get? k =
      if ∃ p ∈ fields, p.1 = k then saved.get? k else vs.get? k
  | [], vs => by simp
  | p :: fields, vs => by
    rw [List.foldl_cons, get?_foldl_putBack saved k fields, get?_putBack]
    by_cases hrest : ∃ q ∈ fields, q.1 = k
    · have hall : ∃ q ∈ p :: fields, q.1 = k := by
        obtain ⟨q, hq, hk⟩ := hrest
        exact ⟨q, List.mem_cons_of_mem _ hq, hk⟩
      rw [if_pos hrest, if_pos hall]
    · rw [if_neg hrest]
      by_cases hp : p.1 = k
      · rw [if_pos hp, if_pos ⟨p, List.mem_cons_self .., hp⟩]
      · rw [if_neg hp, if_neg]
        rintro ⟨q, hq, hk⟩
        rcases List.mem_cons.mp hq with rfl | hq
        · exact hp hk
        · exact hrest ⟨q, hq, hk⟩

theorem ordered_foldl_putBack (saved : Map) : ∀ (fields : Map) {vs : Map}, vs.Ordered →
    (fields.foldl (putBack saved) vs).Ordered
  | [], _, h => h
  | p :: fields, _, h => ordered_foldl_putBack saved fields (ordered_putBack h p)

theorem get?_extend_of_notMem {k : String} : ∀ (fields : Map) {vs : Map},
    (¬ ∃ p ∈ fields, p.1 = k) → (Map.extend fields vs).get? k = vs.get? k
  | [], _, _ => rfl
  | (k', v) :: fields, vs, h => by
    have hk : k' ≠ k := fun he => h ⟨_, List.mem_cons_self .., he⟩
    have hrest : ¬ ∃ p ∈ fields, p.1 = k := by
      rintro ⟨p, hp, he⟩
      exact h ⟨p, List.mem_cons_of_mem _ hp, he⟩
    show (Map.extend fields (vs.insert k' v)).get? k = _
    rw [get?_extend_of_notMem fields hrest, Map.get?_insert, if_neg hk]

theorem get?_shadowed (fields saved : Map) {vs : Map} {k : String}
    (h : vs.get? k = (Map.extend fields saved).get? k) :
    (fields.foldl (putBack saved) vs).get? k = saved.get? k := by
  rw [get?_foldl_putBack]
  by_cases hk : ∃ p ∈ fields, p.1 = k
  · rw [if_pos hk]
  · rw [if_neg hk, h]
    exact get?_extend_of_notMem fields hk

theorem framed_shadowing {α : Type} (fields : Map) {m : Run α} (hm : Framed m) :
    Framed (shadowing fields m) := by
  rintro ⟨c, eng⟩ a s' hrun
  obtain ⟨saved, s₁, hvars, hrun⟩ := Fallible.of_bind_ok hrun
  cases hvars
  obtain ⟨_, s₂, hset, hrun⟩ := Fallible.of_bind_ok hrun
  cases hset
  obtain ⟨b, ⟨c₃, eng₃⟩, hbody, hrun⟩ := Fallible.of_bind_ok hrun
  obtain ⟨_, s₄, hback, hrun⟩ := Fallible.of_bind_ok hrun
  cases hback
  cases hrun
  have hkept := hm _ _ _ hbody
  refine ⟨fun k => get?_shadowed fields c.vars (hkept.vars k), fun ho => ?_, hkept.response, hkept.emits⟩
  refine ordered_foldl_putBack c.vars fields (hkept.ordered ?_)
  exact Map.extend_ind (fun m k v hm => hm.insert k v) fields ho

theorem framed_closed : EvalClosed Framed where
  closed := {
    reads := by
      intro α f s a s' hrun
      have hsame : s = s' := congrArg Prod.snd hrun
      rw [hsame]
      exact .refl _
    bind := by
      intro α β m f hm hf s b s' hrun
      obtain ⟨a, s₁, hmrun, hfrun⟩ := Fallible.of_bind_ok hrun
      exact (hm _ _ _ hmrun).trans (hf a _ _ _ hfrun) }
  noteGet reference := by
    intro s a s' hrun
    cases hrun
    exact .refl _
  shadowing fields m hm := framed_shadowing fields hm

section
variable [External]

theorem framed_invoke (name : String) (args : Map) : Framed (invoke name args) := by
  rintro ⟨c, eng⟩ out s' hrun
  unfold invoke invokeBy at hrun
  dsimp only at hrun
  split at hrun
  next out' emits eng' _ =>
    cases hrun
    exact ⟨fun _ => rfl, fun h => h, rfl, List.prefix_append _ _⟩
  next => cases hrun

/-- Whatever an expression does, when it succeeds the variables and the response are as before
it, and what was emitted before it comes first. -/
theorem eval_keeps_pipeline (e : Expr) (ctx ctx' : Ctx) (eng eng' : Engine) (v : Value)
    (h : eval invoke e (ctx, eng) = (.ok v, (ctx', eng'))) :
    (∀ name, ctx'.vars.get? name = ctx.vars.get? name) ∧ (ctx.vars.Ordered → ctx'.vars = ctx.vars) ∧
      ctx'.response = ctx.response ∧ ctx.emits <+: ctx'.emits := by
  have hkept : ctx.Kept ctx' :=
    eval_closed framed_closed e (fun _ => framed_invoke) (ctx, eng) v (ctx', eng') h
  exact ⟨hkept.vars, hkept.vars_eq, hkept.response, hkept.emits⟩

end

def regional : Expr := .filter (.var "lines") (.bin .eq (.var "region") (.lit (.string "EU")))

def orderCtx : Ctx where
  vars := [("lines", .array [.object [("region", .string "EU"), ("sku", .string "a")],
    .object [("region", .string "US")]]), ("region", .string "all")]
  emits := [("vx.seen", .null)]
  response := none
  owner := .program "default"

def idle : Engine := .withSecrets (fun _ => none) "/p" "default" .error

theorem eval_keeps_pipeline_regional :
    @eval ascii (@invoke ascii) regional (orderCtx, idle) =
        (.ok (.array [.object [("region", .string "EU"), ("sku", .string "a")]]), (orderCtx, idle)) ∧
      orderCtx.emits <+: orderCtx.emits := by
  have hkept := @eval_keeps_pipeline ascii regional orderCtx orderCtx idle idle _ rfl
  exact ⟨rfl, hkept.2.2.2⟩

end Vejas.Vjs
