import LuaUnpack.Chunk.Prototype
import LuaUnpack.Chunk.Bytes

/-!
# Warnings

What is worth saying about a program that could be recovered only in part. Warnings
are kept in the order in which they come up, also when recovery fails afterwards.
-/

namespace LuaUnpack.Recover

open LuaUnpack.Chunk

/-- A remark about the program. -/
inductive Warning where
  | noHandler (opnum : Int32) (index : Nat)
  | unknownHandler (fingerprint body : String)
  | lostTarget (index : Nat) (offset : Int32)
  | missingPrototype (index : Int32)
  | leftUnresolved (count : Nat)
deriving DecidableEq, Repr

/-- The message for a warning. -/
def Warning.message : Warning → String
  | noHandler opnum index => s!"No handler for opcode number {opnum.toInt} at {index}"
  | unknownHandler fingerprint body => s!"Could not identify handler {fingerprint}:\n{body}"
  | lostTarget index offset => s!"Jump at {index} lost its target, offset left as {offset.toInt}"
  | missingPrototype index => s!"Closure references missing prototype {index.toInt}"
  | leftUnresolved count => s!"{count} instruction(s) left unresolved"

/-- A step of recovery: it can fail, and its warnings are kept. -/
abbrev Step := ExceptT Chunk.Error (StateM (List Warning))

namespace Step

/-- Gives warnings. -/
def warn (warnings : List Warning) : Step Unit := modify (· ++ warnings)

/-- A result that comes with warnings. -/
def noting {α : Type} (result : α × List Warning) : Step α := do
  warn result.2
  return result.1

/-- The result of a step, and its warnings. -/
def runStep {α : Type} (step : Step α) : Except Chunk.Error α × List Warning := step.run []

end Step

end LuaUnpack.Recover
