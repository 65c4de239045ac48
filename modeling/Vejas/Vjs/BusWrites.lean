import Vejas.Vjs.Induction

/-! A program that the write gate takes for a pure read is one: where neither an
`emit` nor an `invoke` occurs, a run emits nothing and touches no service. -/

namespace Vejas.Vjs
open Json Rust Run

/-- Nothing emitted since `emits`, and an engine that only looked secrets up. -/
def Quiet (emits : List Emit) (eng : Engine) (s : Ctx × Engine) : Prop :=
  s.1.emits = emits ∧ s.2 = { eng with gets := s.2.gets }

theorem execClosed_quiet (emits : List Emit) (eng : Engine) :
    ExecClosed (Fallible.Maintains (Quiet emits eng) fun _ => Quiet emits eng) where
  closed := Fallible.closed_maintains fun _ _ h => h
  noteGet reference := .modify fun s hs => ⟨hs.1, by rw [hs.2]⟩
  setVars f := .modify fun _ hs => hs
  setResponse r := .modify fun _ hs => hs

section
variable [External]

theorem run_quiet {p : Program} (h : p.writesBus = false) (event : Value) (eng : Engine) :
    (∀ ctx, (run p event eng).1 = .ok ctx → ctx.emits = []) ∧
      (run p event eng).2 = { eng with gets := (run p event eng).2.gets } := by
  have hb : Fallible.Maintains (Quiet [] eng) (fun _ => Quiet [] eng) (execBlock invoke p.stmts) :=
    execBlock_closed (execClosed_quiet [] eng) p.stmts
      fun hw => absurd (h.symm.trans hw) (by decide)
  have hs : Quiet [] eng (startCtx event eng.callerPkg, eng) := ⟨rfl, rfl⟩
  unfold run
  rcases hr : execBlock invoke p.stmts (startCtx event eng.callerPkg, eng) with ⟨_ | u, ctx, eng'⟩
  · refine ⟨?_, (hb.error hs hr).2⟩
    rintro _ ⟨⟩
  · refine ⟨?_, (hb.ok hs hr).2⟩
    rintro _ ⟨⟩
    exact (hb.ok hs hr).1

/-- `writes_bus` is sound for every run and exact on the syntax. -/
theorem writesBus_sound (p : Program) (event : Value) (eng : Engine) :
    (p.writesBus = false →
      (∀ ctx eng', run p event eng = (.ok ctx, eng') → ctx.emits = []) ∧
        (run p event eng).2.calls = eng.calls) ∧
    (p.writesBus = true ↔ WriterIn p.stmts) := by
  refine ⟨fun hw => ?_, stmtsWriteBus_iff p.stmts⟩
  obtain ⟨hemits, heng⟩ := run_quiet hw event eng
  refine ⟨fun ctx eng' hr => hemits ctx (by rw [hr]), ?_⟩
  rw [heng]

end

def readFlow : Program where
  source := none
  tool := none
  api := some "GET /orders"
  driver := none
  stmts := [.respond (.lit (num 200)) (.field (.var "event") "id" false)]
  surface := []
  emitSubjects := []
  invokes := []
  secretRefs := []

theorem writesBus_sound_readFlow :
    readFlow.writesBus = false ∧
      (@run ascii readFlow .null (.withSecrets (fun _ => none) "/p" "default" .error)).2.calls = [] :=
  ⟨rfl, ((@writesBus_sound ascii readFlow .null _).1 rfl).2⟩

end Vejas.Vjs
