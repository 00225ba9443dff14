import LuaUnpack.Error
import LuaUnpack.Recover.Warning

/-!
# What happens during a run

A run goes through stages, and on the way it has something to say. All of it is kept
in the order in which it happens, also when the run fails afterwards.
-/

namespace LuaUnpack.Unpack

/-- A stage of a run. -/
inductive Stage where
  | analysis
  | antiTamper
  | controlFlow
  | data
  | recovery
deriving DecidableEq, Repr

/-- What a stage is called. -/
def Stage.label : Stage → String
  | analysis => "Analyzing script"
  | antiTamper => "Unwrapping anti-tamper layer"
  | controlFlow => "Solving control flow"
  | data => "Deserializing bytecode"
  | recovery => "Devirtualizing"

/-- What a run has found. -/
inductive Notice where
  | skippedTable (error : Error)
  | innerScript
  | program (functions instructions : Nat)
  | handlers (count : Nat)
deriving DecidableEq, Repr

/-- The message for a finding. -/
def Notice.message : Notice → String
  | skippedTable error => s!"Skipping constant table candidate: {error.message}"
  | innerScript => "Anti-tamper layer found, retrying against the inner script"
  | program functions instructions =>
    s!"Deserialized {functions} prototype(s), {instructions} instruction(s)"
  | handlers count => s!"Mapped {count} opcode handler(s)"

/-- Something that happens during a run. -/
inductive Event where
  | stage (stage : Stage)
  | notice (notice : Notice)
  | warning (warning : Recover.Warning)
deriving DecidableEq, Repr

/-- The stage that an event starts. -/
def Event.stage? : Event → Option Stage
  | stage s => some s
  | _ => none

/-- The warning that an event is. -/
def Event.warning? : Event → Option Recover.Warning
  | warning w => some w
  | _ => none

/-- A run: it can fail, and what happened is kept. -/
abbrev Run := ExceptT Error (StateM (List Event))

namespace Run

/-- Notes events. -/
def note (events : List Event) : Run Unit := modify (· ++ events)

/-- Starts a stage. -/
def enter (stage : Stage) : Run Unit := note [.stage stage]

/-- Goes on with a result. -/
def lift {α : Type} (result : Except Error α) : Run α := result

/-- Goes on with the result of a step of recovery, whose warnings are noted. -/
def ofStep {α : Type} (step : Recover.Step α) : Run α := do
  let (result, warnings) := step.runStep
  note (warnings.map .warning)
  lift (result.mapError .bytecode)

/-- The result of a run, and what happened. -/
def outcome {α : Type} (run : Run α) : Except Error α × List Event := ExceptT.run run []

end Run

end LuaUnpack.Unpack
