import LuaUnpack.Handler.Catalog
import LuaUnpack.Handler.Mapping
import LuaUnpack.Recover.Warning

/-!
# Identifying operations

The instructions of a function are gone through in order. An instruction takes the
first operation of the handler with its number, and the instructions after it take
the further operations of that handler. If a handler has more operations than there
are instructions left, the last instruction takes all that remain. After an
instruction that returns, the instructions are padding up to the next one that a
known jump leads to.
-/

namespace LuaUnpack.Recover

open LuaUnpack.Chunk LuaUnpack.Handler

/-- What happens to the next instruction: it starts a handler, it goes on with the
    operations of one, or it is padding. -/
inductive Mode where
  | start
  | within (ops : List MicroOp)
  | padding

/-- What the walk over the instructions knows: its mode and the targets of the jumps
    met so far. -/
structure Walk where
  mode : Mode := .start
  targets : List Nat := []

/-- An instruction with the operation that the catalog has for a handler. -/
def identify (catalog : Catalog) (op : MicroOp) (i : Instruction) :
    Instruction × List Warning :=
  match catalog.get? op.fingerprint with
  | some resolution => (resolution.apply i, [])
  | none => (i, [.unknownHandler op.fingerprint (Lua.Block.print op.body)])

/-- The index that a jump at an index leads to, unless it is negative. -/
def target? (index : Nat) (i : Instruction) : Option Nat :=
  let target := (index : Int) + i.b.toInt + 1
  if target < 0 then none else some target.toNat

/-- The targets known after an instruction. -/
def learnTarget (targets : List Nat) (index : Nat) (i : Instruction) : List Nat :=
  if i.opcode = .jmp then targets ++ (target? index i).toList else targets

/-- Whether control never goes past an instruction. -/
def returns (i : Instruction) : Bool := i.opcode == .ret || i.opcode == .tailCall

/-- An instruction after a visit, how the walk goes on, and what is to be said. -/
structure Visit where
  instruction : Instruction
  walk : Walk
  warnings : List Warning

/-- Takes operations for an instruction: the first one, or all of them if it is the
    last instruction. -/
def takeOps (catalog : Catalog) (index : Nat) (isLast : Bool) :
    List Nat → List MicroOp → Instruction → Visit
  | targets, [], i => ⟨i, ⟨.start, targets⟩, []⟩
  | targets, op :: ops, i =>
    let (i, warnings) := identify catalog op i
    let targets := learnTarget targets index i
    if returns i then ⟨i, ⟨.padding, targets⟩, warnings⟩
    else if ops.isEmpty then ⟨i, ⟨.start, targets⟩, warnings⟩
    else if isLast then
      let visit := takeOps catalog index isLast targets ops i
      { visit with warnings := warnings ++ visit.warnings }
    else ⟨i, ⟨.within ops, targets⟩, warnings⟩

/-- Visits an instruction that starts a handler. -/
def visitStart (mapping : Mapping) (catalog : Catalog) (index : Nat) (isLast : Bool)
    (targets : List Nat) (i : Instruction) : Visit :=
  match mapping.get? i.opnum with
  | none => ⟨i, ⟨.start, targets⟩, [.noHandler i.opnum index]⟩
  | some ops => takeOps catalog index isLast targets ops i

/-- Visits an instruction. -/
def visit (mapping : Mapping) (catalog : Catalog) (index : Nat) (isLast : Bool) (walk : Walk)
    (i : Instruction) : Visit :=
  match walk.mode with
  | .start => visitStart mapping catalog index isLast walk.targets i
  | .within ops => takeOps catalog index isLast walk.targets ops i
  | .padding =>
    if walk.targets.contains index then
      visitStart mapping catalog index isLast walk.targets i
    else
      ⟨i.markDead, walk, []⟩

/-- Visits instructions from an index on. -/
def resolveFrom (mapping : Mapping) (catalog : Catalog) (index : Nat) (walk : Walk) :
    List Instruction → List Instruction × List Warning
  | [] => ([], [])
  | i :: rest =>
    let here := visit mapping catalog index rest.isEmpty walk i
    let (more, warnings) := resolveFrom mapping catalog (index + 1) here.walk rest
    (here.instruction :: more, here.warnings ++ warnings)

/-- Identifies the operations of the instructions of a function. -/
def resolveCode (mapping : Mapping) (catalog : Catalog) (code : List Instruction) :
    List Instruction × List Warning :=
  resolveFrom mapping catalog 0 {} code

/-- Identifies the operations of a program. -/
def resolveOpcodes (mapping : Mapping) (catalog : Catalog) (root : Prototype) : Step Prototype :=
  root.mapBody fun code constants => do
    return (← Step.noting (resolveCode mapping catalog code), constants)

end LuaUnpack.Recover
