import Vejas.Vjs.Eval

/-! A shadow run depends on which secrets resolve, never on what they are. -/

namespace Vejas.Vjs
open Json Rust

/-- The stores agree on whether a lookup succeeds and on the text of its error. -/
def SameOutcome (s₁ s₂ : SecretStore) : Prop :=
  ∀ reference, (s₁ reference).map (fun _ => ()) = (s₂ reference).map fun _ => ()

theorem redactedStore_eq_map (s : SecretStore) (reference : String) :
    redactedStore s reference =
      ((s reference).map fun _ => ()).map fun _ => "<secret:" ++ reference ++ ">" := by
  unfold redactedStore
  cases s reference <;> rfl

theorem redactedStore_eq {s₁ s₂ : SecretStore} (h : SameOutcome s₁ s₂) :
    redactedStore s₁ = redactedStore s₂ := by
  funext reference
  rw [redactedStore_eq_map, redactedStore_eq_map, h reference]

section
variable [External]

/-- Runs on engines that differ in the store behind the redaction have the same
result, from any state of the engine. -/
theorem shadow_run_independent {s₁ s₂ : SecretStore} (h : SameOutcome s₁ s₂) (p : Program)
    (event : Value) (eng : Engine) :
    (run p event { eng with secrets := redactedStore s₁ }).1 =
      (run p event { eng with secrets := redactedStore s₂ }).1 := by
  rw [redactedStore_eq h]

end

def leakFlow : Program where
  source := none
  tool := none
  api := none
  driver := none
  stmts := [.emit (.lit (.string "vx.out")) (.call "secret" [.lit (.string "db/key")])]
  surface := []
  emitSubjects := ["vx.out"]
  invokes := []
  secretRefs := [("emit", "db/key")]

theorem shadow_run_independent_leakFlow :
    (@run ascii leakFlow .null
        (.shadow (fun _ => none) "/p" "default" fun _ => .ok "hunter2")).1 =
      (@run ascii leakFlow .null
        (.shadow (fun _ => none) "/p" "default" fun _ => .ok "swordfish")).1 :=
  @shadow_run_independent ascii (fun _ => .ok "hunter2") (fun _ => .ok "swordfish")
    (fun _ => rfl) leakFlow .null (.withSecrets (fun _ => none) "/p" "default" .error)

end Vejas.Vjs
