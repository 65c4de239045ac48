import Mathlib.Logic.Relation
import Vejas.Vjs.Ast

/-! Where one expression or statement occurs in another, and what `writes_bus` finds there. -/

namespace Vejas.Vjs
open Json Rust

inductive Operand : Expr → Expr → Prop
  | hole {e parts} : FStringPart.expr e ∈ parts → Operand e (.fString parts)
  | docField {k e fields} : (k, e) ∈ fields → Operand e (.doc fields)
  | item {e items} : e ∈ items → Operand e (.array items)
  | fieldBase {e name safe} : Operand e (.field e name safe)
  | indexBase {e k} : Operand e (.index e k)
  | indexKey {b e} : Operand e (.index b e)
  | projected {e} : Operand e (.projection e)
  | filterBase {e c} : Operand e (.filter e c)
  | filterCond {b e} : Operand e (.filter b e)
  | callArg {e name args} : e ∈ args → Operand e (.call name args)
  | invokeArg {k e name args} : (k, e) ∈ args → Operand e (.invoke name args)
  | unary {op e} : Operand e (.unary op e)
  | left {op e r} : Operand e (.bin op e r)
  | right {op l e} : Operand e (.bin op l e)

inductive Nested : Stmt → Stmt → Prop
  | arm {s c span body arms o} : (c, span, body) ∈ arms → s ∈ body → Nested s (.ite arms o)
  | orElse {s arms body} : s ∈ body → Nested s (.ite arms (some body))
  | body {s x iter body} : s ∈ body → Nested s (.loop x iter body)

/-- `e` is an expression of the statement itself, not of one nested in it. -/
inductive Evaluated : Expr → Stmt → Prop
  | assign {path e} : Evaluated e (.assign path e)
  | cond {e span body arms o} : (e, span, body) ∈ arms → Evaluated e (.ite arms o)
  | iter {x e body} : Evaluated e (.loop x e body)
  | subject {e p} : Evaluated e (.emit e p)
  | payload {s e} : Evaluated e (.emit s e)
  | status {e b} : Evaluated e (.respond e b)
  | respondBody {s e} : Evaluated e (.respond s e)
  | invokeArg {k e name args} : (k, e) ∈ args → Evaluated e (.invokeMerge name args)

abbrev Occurs (c e : Expr) : Prop := Relation.ReflTransGen Operand c e

def StmtIn (t : Stmt) (ss : List Stmt) : Prop := ∃ s ∈ ss, Relation.ReflTransGen Nested t s

def ExprIn (c : Expr) (ss : List Stmt) : Prop := ∃ t e, StmtIn t ss ∧ Evaluated e t ∧ Occurs c e

theorem Operand.sizeOf_lt {c e : Expr} (h : Operand c e) : sizeOf c < sizeOf e := by
  cases h with
  | hole hm =>
    have := List.sizeOf_lt_of_mem hm
    simp only [FStringPart.expr.sizeOf_spec] at this
    simp only [Expr.fString.sizeOf_spec]
    omega
  | docField hm =>
    have := List.sizeOf_lt_of_mem hm
    simp only [Prod.mk.sizeOf_spec] at this
    simp only [Expr.doc.sizeOf_spec]
    omega
  | invokeArg hm =>
    have := List.sizeOf_lt_of_mem hm
    simp only [Prod.mk.sizeOf_spec] at this
    simp only [Expr.invoke.sizeOf_spec]
    omega
  | item hm =>
    have := List.sizeOf_lt_of_mem hm
    simp only [Expr.array.sizeOf_spec]
    omega
  | callArg hm =>
    have := List.sizeOf_lt_of_mem hm
    simp only [Expr.call.sizeOf_spec]
    omega
  | fieldBase => simp only [Expr.field.sizeOf_spec]; omega
  | indexBase => simp only [Expr.index.sizeOf_spec]; omega
  | indexKey => simp only [Expr.index.sizeOf_spec]; omega
  | projected => simp only [Expr.projection.sizeOf_spec]; omega
  | filterBase => simp only [Expr.filter.sizeOf_spec]; omega
  | filterCond => simp only [Expr.filter.sizeOf_spec]; omega
  | unary => simp only [Expr.unary.sizeOf_spec]; omega
  | left => simp only [Expr.bin.sizeOf_spec]; omega
  | right => simp only [Expr.bin.sizeOf_spec]; omega

theorem Expr.induct {P : Expr → Prop} (h : ∀ e, (∀ c, Operand c e → P c) → P e) (e : Expr) : P e :=
  (measure (sizeOf : Expr → Nat)).wf.induction e fun e ih => h e fun c hc => ih c hc.sizeOf_lt

theorem StmtIn.inner {r s : Stmt} {ss : List Stmt} (h : StmtIn s ss) (hn : Nested r s) : StmtIn r ss := by
  obtain ⟨s', hs', hs⟩ := h
  exact ⟨s', hs', hs.head hn⟩

def InvokeIn (e : Expr) : Prop :=
  ∃ name args, Relation.ReflTransGen Operand (.invoke name args) e

def WritesHere (s : Stmt) : Prop :=
  (∃ subject payload, s = .emit subject payload) ∨ (∃ name args, s = .invokeMerge name args) ∨
    ∃ e, Evaluated e s ∧ InvokeIn e

def WriterIn (ss : List Stmt) : Prop :=
  ∃ s ∈ ss, ∃ t, Relation.ReflTransGen Nested t s ∧ WritesHere t

theorem InvokeIn.operand {c e : Expr} (hc : InvokeIn c) (h : Operand c e) : InvokeIn e := by
  obtain ⟨name, args, hi⟩ := hc
  exact ⟨name, args, hi.tail h⟩

mutual

theorem invokeIn_of_exprWritesBus : ∀ e, exprWritesBus e = true → InvokeIn e
  | .invoke name args, _ => ⟨name, args, .refl⟩
  | .lit _, h => by simp [exprWritesBus] at h
  | .var _, h => by simp [exprWritesBus] at h
  | .fString parts, h =>
    have ⟨_, hm, hi⟩ := invokeIn_of_partsWriteBus parts h
    hi.operand (.hole hm)
  | .doc fields, h =>
    have ⟨_, _, hm, hi⟩ := invokeIn_of_fieldsWriteBus fields h
    hi.operand (.docField hm)
  | .array items, h =>
    have ⟨_, hm, hi⟩ := invokeIn_of_exprsWriteBus items h
    hi.operand (.item hm)
  | .field b _ _, h => (invokeIn_of_exprWritesBus b h).operand .fieldBase
  | .index a b, h => by
    rcases Bool.or_eq_true _ _ ▸ h with h | h
    · exact (invokeIn_of_exprWritesBus a h).operand .indexBase
    · exact (invokeIn_of_exprWritesBus b h).operand .indexKey
  | .projection b, h => (invokeIn_of_exprWritesBus b h).operand .projected
  | .filter a b, h => by
    rcases Bool.or_eq_true _ _ ▸ h with h | h
    · exact (invokeIn_of_exprWritesBus a h).operand .filterBase
    · exact (invokeIn_of_exprWritesBus b h).operand .filterCond
  | .call _ args, h =>
    have ⟨_, hm, hi⟩ := invokeIn_of_exprsWriteBus args h
    hi.operand (.callArg hm)
  | .unary _ b, h => (invokeIn_of_exprWritesBus b h).operand .unary
  | .bin _ a b, h => by
    rcases Bool.or_eq_true _ _ ▸ h with h | h
    · exact (invokeIn_of_exprWritesBus a h).operand .left
    · exact (invokeIn_of_exprWritesBus b h).operand .right

theorem invokeIn_of_partsWriteBus :
    ∀ ps, partsWriteBus ps = true → ∃ e, FStringPart.expr e ∈ ps ∧ InvokeIn e
  | [], h => by simp [partsWriteBus] at h
  | .lit _ :: ps, h =>
    have ⟨e, hm, hi⟩ := invokeIn_of_partsWriteBus ps h
    ⟨e, List.mem_cons_of_mem _ hm, hi⟩
  | .expr e :: ps, h => by
    rcases Bool.or_eq_true _ _ ▸ h with h | h
    · exact ⟨e, List.mem_cons_self, invokeIn_of_exprWritesBus e h⟩
    · obtain ⟨e', hm, hi⟩ := invokeIn_of_partsWriteBus ps h
      exact ⟨e', List.mem_cons_of_mem _ hm, hi⟩

theorem invokeIn_of_fieldsWriteBus :
    ∀ fs, fieldsWriteBus fs = true → ∃ k e, (k, e) ∈ fs ∧ InvokeIn e
  | [], h => by simp [fieldsWriteBus] at h
  | (k, e) :: fs, h => by
    rcases Bool.or_eq_true _ _ ▸ h with h | h
    · exact ⟨k, e, List.mem_cons_self, invokeIn_of_exprWritesBus e h⟩
    · obtain ⟨k', e', hm, hi⟩ := invokeIn_of_fieldsWriteBus fs h
      exact ⟨k', e', List.mem_cons_of_mem _ hm, hi⟩

theorem invokeIn_of_exprsWriteBus : ∀ es, exprsWriteBus es = true → ∃ e ∈ es, InvokeIn e
  | [], h => by simp [exprsWriteBus] at h
  | e :: es, h => by
    rcases Bool.or_eq_true _ _ ▸ h with h | h
    · exact ⟨e, List.mem_cons_self, invokeIn_of_exprWritesBus e h⟩
    · obtain ⟨e', hm, hi⟩ := invokeIn_of_exprsWriteBus es h
      exact ⟨e', List.mem_cons_of_mem _ hm, hi⟩

end

theorem partsWriteBus_of_mem {e : Expr} {ps : List FStringPart} (he : exprWritesBus e = true)
    (hm : .expr e ∈ ps) : partsWriteBus ps = true := by
  induction ps with
  | nil => cases hm
  | cons p ps ih =>
    cases p with
    | lit _ => exact ih (by simpa using hm)
    | expr e' =>
      rcases List.mem_cons.mp hm with h | h
      · cases h
        simp [partsWriteBus, he]
      · simp [partsWriteBus, ih h]

theorem fieldsWriteBus_of_mem {k : String} {e : Expr} {fs : List (String × Expr)}
    (he : exprWritesBus e = true) (hm : (k, e) ∈ fs) : fieldsWriteBus fs = true := by
  induction fs with
  | nil => cases hm
  | cons p fs ih =>
    rcases List.mem_cons.mp hm with rfl | h
    · simp [fieldsWriteBus, he]
    · simp [fieldsWriteBus, ih h]

theorem exprsWriteBus_of_mem {e : Expr} {es : List Expr} (he : exprWritesBus e = true)
    (hm : e ∈ es) : exprsWriteBus es = true := by
  induction es with
  | nil => cases hm
  | cons e' es ih =>
    rcases List.mem_cons.mp hm with rfl | h
    · simp [exprsWriteBus, he]
    · simp [exprsWriteBus, ih h]

theorem exprWritesBus_of_operand {c e : Expr} (h : Operand c e) (hc : exprWritesBus c = true) :
    exprWritesBus e = true := by
  cases h with
  | hole hm => exact partsWriteBus_of_mem hc hm
  | docField hm => exact fieldsWriteBus_of_mem hc hm
  | item hm => exact exprsWriteBus_of_mem hc hm
  | callArg hm => exact exprsWriteBus_of_mem hc hm
  | invokeArg _ => rfl
  | _ => simp [exprWritesBus, hc]

theorem exprWritesBus_iff (e : Expr) : exprWritesBus e = true ↔ InvokeIn e := by
  refine ⟨invokeIn_of_exprWritesBus e, ?_⟩
  rintro ⟨name, args, hi⟩
  induction hi with
  | refl => rfl
  | tail _ h ih => exact exprWritesBus_of_operand h ih

theorem WriterIn.cons {s : Stmt} {ss : List Stmt} (h : WriterIn ss) : WriterIn (s :: ss) := by
  obtain ⟨s', hm, ht⟩ := h
  exact ⟨s', List.mem_cons_of_mem _ hm, ht⟩

theorem WriterIn.nested {s : Stmt} {body : List Stmt} (h : WriterIn body)
    (hn : ∀ t ∈ body, Nested t s) : ∃ t, Relation.ReflTransGen Nested t s ∧ WritesHere t := by
  obtain ⟨s', hm, t, ht, hw⟩ := h
  exact ⟨t, ht.tail (hn s' hm), hw⟩

theorem writesHere_of_expr {e : Expr} {s : Stmt} (h : Evaluated e s) (he : exprWritesBus e = true) :
    WritesHere s := .inr (.inr ⟨e, h, (exprWritesBus_iff e).mp he⟩)

mutual

theorem writer_of_stmtWritesBus :
    ∀ s, stmtWritesBus s = true → ∃ t, Relation.ReflTransGen Nested t s ∧ WritesHere t
  | .emit a b, _ => ⟨_, .refl, .inl ⟨a, b, rfl⟩⟩
  | .invokeMerge n a, _ => ⟨_, .refl, .inr (.inl ⟨n, a, rfl⟩)⟩
  | .assign _ _, h => ⟨_, .refl, writesHere_of_expr .assign h⟩
  | .respond _ _, h => by
    rcases Bool.or_eq_true _ _ ▸ h with h | h
    · exact ⟨_, .refl, writesHere_of_expr .status h⟩
    · exact ⟨_, .refl, writesHere_of_expr .respondBody h⟩
  | .ite arms o, h => by
    rcases Bool.or_eq_true _ _ ▸ h with h | h
    · obtain ⟨c, span, body, hm, hc | hb⟩ := writer_of_armsWriteBus arms h
      · exact ⟨_, .refl, writesHere_of_expr (.cond hm) hc⟩
      · exact hb.nested fun t ht => .arm hm ht
    · obtain ⟨body, rfl, hb⟩ := writer_of_elseWritesBus o h
      exact hb.nested fun t ht => .orElse ht
  | .loop _ iter body, h => by
    rcases Bool.or_eq_true _ _ ▸ h with h | h
    · exact ⟨_, .refl, writesHere_of_expr .iter h⟩
    · exact (writer_of_stmtsWriteBus body h).nested fun t ht => .body ht

theorem writer_of_armsWriteBus : ∀ arms, armsWriteBus arms = true →
    ∃ c span body, (c, span, body) ∈ arms ∧ (exprWritesBus c = true ∨ WriterIn body)
  | [], h => by simp [armsWriteBus] at h
  | (c, span, body) :: arms, h => by
    rcases Bool.or_eq_true _ _ ▸ h with h | h
    · rcases Bool.or_eq_true _ _ ▸ h with h | h
      · exact ⟨c, span, body, List.mem_cons_self, .inl h⟩
      · exact ⟨c, span, body, List.mem_cons_self, .inr (writer_of_stmtsWriteBus body h)⟩
    · obtain ⟨c', span', body', hm, hw⟩ := writer_of_armsWriteBus arms h
      exact ⟨c', span', body', List.mem_cons_of_mem _ hm, hw⟩

theorem writer_of_elseWritesBus :
    ∀ o, elseWritesBus o = true → ∃ body, o = some body ∧ WriterIn body
  | none, h => by simp [elseWritesBus] at h
  | some body, h => ⟨body, rfl, writer_of_stmtsWriteBus body h⟩

theorem writer_of_stmtsWriteBus : ∀ ss, stmtsWriteBus ss = true → WriterIn ss
  | [], h => by simp [stmtsWriteBus] at h
  | s :: ss, h => by
    rcases Bool.or_eq_true _ _ ▸ h with h | h
    · exact ⟨s, List.mem_cons_self, writer_of_stmtWritesBus s h⟩
    · exact (writer_of_stmtsWriteBus ss h).cons

end

theorem stmtsWriteBus_of_mem {s : Stmt} {ss : List Stmt} (hs : stmtWritesBus s = true)
    (hm : s ∈ ss) : stmtsWriteBus ss = true := by
  induction ss with
  | nil => cases hm
  | cons s' ss ih =>
    rcases List.mem_cons.mp hm with rfl | h
    · simp [stmtsWriteBus, hs]
    · simp [stmtsWriteBus, ih h]

theorem armsWriteBus_of_mem {c : Expr} {span : Span} {body : List Stmt}
    {arms : List (Expr × Span × List Stmt)}
    (h : exprWritesBus c = true ∨ stmtsWriteBus body = true) (hm : (c, span, body) ∈ arms) :
    armsWriteBus arms = true := by
  induction arms with
  | nil => cases hm
  | cons arm arms ih =>
    rcases List.mem_cons.mp hm with rfl | hm
    · simpa [armsWriteBus] using .inl h
    · simp [armsWriteBus, ih hm]

theorem stmtWritesBus_of_nested {t s : Stmt} (h : Nested t s) (ht : stmtWritesBus t = true) :
    stmtWritesBus s = true := by
  cases h with
  | arm ha hb => simp [stmtWritesBus, armsWriteBus_of_mem (.inr (stmtsWriteBus_of_mem ht hb)) ha]
  | orElse hb => simp [stmtWritesBus, elseWritesBus, stmtsWriteBus_of_mem ht hb]
  | body hb => simp [stmtWritesBus, stmtsWriteBus_of_mem ht hb]

theorem stmtWritesBus_of_writesHere {s : Stmt} (h : WritesHere s) : stmtWritesBus s = true := by
  rcases h with ⟨a, b, rfl⟩ | ⟨n, a, rfl⟩ | ⟨e, he, hi⟩
  · rfl
  · rfl
  · have hw := (exprWritesBus_iff e).mpr hi
    cases he with
    | cond hm => simp [stmtWritesBus, armsWriteBus_of_mem (.inl hw) hm]
    | _ => simp [stmtWritesBus, hw]

theorem stmtsWriteBus_iff (ss : List Stmt) : stmtsWriteBus ss = true ↔ WriterIn ss := by
  refine ⟨writer_of_stmtsWriteBus ss, ?_⟩
  rintro ⟨s, hm, t, ht, hw⟩
  refine stmtsWriteBus_of_mem ?_ hm
  clear hm
  induction ht with
  | refl => exact stmtWritesBus_of_writesHere hw
  | tail _ h ih => exact stmtWritesBus_of_nested h ih

end Vejas.Vjs
