import ArchivAgent.Pipeline.Envelope

/-!
# The fail-open guard

`archiv-pipeline/src/guard.rs`. A stage that fails leaves behind the envelope it has changed so
far; the guard clears what the stage decided. `catch_unwind` stops a panic, not a loop.
-/

namespace ArchivAgent

inductive StageError where
  | rule (ruleId : Nat) (reason : String)
  | internal (reason : String)
  deriving DecidableEq, Repr

inductive BypassReason where
  | panic
  | error (e : StageError)
  deriving DecidableEq, Repr

inductive StageOutcome where
  | applied
  | bypassed (reason : BypassReason)
  deriving DecidableEq, Repr

structure Stage where
  id : StageId
  apply : Envelope → Run StageError Unit × Envelope

def guarded (stage : Stage) (env : Envelope) : Run Empty (StageOutcome × Envelope) :=
  match stage.apply env with
  | (.ok (), env) => .ok (.applied, env)
  | (.error (.err e), env) =>
    .ok (.bypassed (.error e), { env with decisions := env.decisions.clearStage stage.id })
  | (.error .panic, env) =>
    .ok (.bypassed .panic, { env with decisions := env.decisions.clearStage stage.id })
  | (.error .diverge, _) => .error .diverge

end ArchivAgent
