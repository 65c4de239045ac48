import Vejas.Governance.World

/-! The version overlay: the effective source of a flow, and a promote in a cluster. -/

namespace Vejas.Governance
open Json Rust Vjs
variable [External]

def overlayOf (versions : Kv) (flow : String) : Option Value :=
  (versions.get? (keyOf flow)).bind fromStr

def getVersion (fates : Fates) (flow : String) : Gov (Option Value) :=
  -- `get_version`: a read that fails counts as no overlay
  .reads fun w => .ok (if (fates .getVersion).isOk then overlayOf w.versions flow else none)

def putVersion (cfg : Settings) (fates : Fates) (flow source parentHash actor : String) : Gov Unit :=
  let record := Value.obj [
    ("flow", .string flow), ("source", .string source), ("parent", .string parentHash),
    ("hash", .string (hashContent source)), ("actor", .string actor), ("ts", .ofNat cfg.now)]
  perform (fates .putVersion) fun w => w.putVersion (keyOf flow) record.render

inductive Outcome
  | baseline
  | overlay
  | evicted (parent baseline : String)

def forkedFrom (ov : Value) (baseline : String) : Bool :=
  (ov.text "parent").getD "" == hashContent baseline

/-- The effective source: the overlay if it is valid against the baseline, else the baseline,
and then a stale overlay is deleted. -/
def resolveSource (store : Bool) (fates : Fates) (flow baseline : String) :
    Gov (String × Outcome) := do
  if !store then pure (baseline, .baseline)
  else match ← getVersion fates flow with
    | none => pure (baseline, .baseline)
    | some ov =>
      if forkedFrom ov baseline then pure ((ov.text "source").getD baseline, .overlay)
      else
        ignore (perform (fates .deleteVersion) fun w => w.deleteVersion (keyOf flow))
        pure (baseline, .evicted ((ov.text "parent").getD "") (hashContent baseline))

def effectiveSourceHash (cfg : Settings) (fates : Fates) (file : String) : Gov String := do
  let path ← guarded cfg file
  let baseline ← readFile path
  let (src, _) ← resolveSource (fates .openVersions).isOk fates (flowProcName path) baseline
  pure (hashContent src)

def toAudit (fates : Fates) (unit : String) (record : Value) : Gov Unit :=
  perform (fates .audit) fun w => w.publish ("vxaudit." ++ keyOf unit) record.render

def recordPromote (cfg : Settings) (fates : Fates) (file name key : String) (before after : Value)
    (actor : String) : Gov Unit := ignore do
  let path ← guarded cfg file
  if !(fates .auditConnect).isOk then pure ()
  else
    let unit := flowProcName path
    toAudit fates unit <| .obj [
      ("ts", .ofNat cfg.now), ("actor", .string actor), ("unit", .string unit),
      ("file", .string file), ("name", .string name), ("key", .string key),
      ("before", before), ("after", after)]

def rewrite (src name key : String) (value : Value) : Gov String := fun w =>
  (setLiteral src name key value, w.note (.rewrite src))

def promoteVersion (cfg : Settings) (fates : Fates) (file name key : String) (value : Value)
    (actor : String) : Gov Value := do
  let path ← guarded cfg file
  let baseline ← readFile path
  let unit := flowProcName path
  connect fates
  if !(fates .openVersions).isOk then fail "version store unavailable"
  else
    let (current, _) ← resolveSource true fates unit baseline
    let before := (getLiteral current name key).getD .null
    let newSrc ← rewrite current name key value
    let parent := hashContent baseline
    putVersion cfg fates unit newSrc parent actor
    recordPromote cfg fates file name key before value actor
    pure (.obj [("ok", .bool true), ("versioned", .bool true), ("flow", .string unit),
      ("parent", .string parent)])

end Vejas.Governance
