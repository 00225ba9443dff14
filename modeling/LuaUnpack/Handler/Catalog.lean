import LuaUnpack.Chunk.Instruction
import LuaUnpack.Dict
import LuaUnpack.Handler.Fingerprint

/-!
# The catalog of handlers

What a fingerprint stands for: an operation, and a correction of the operands,
because handlers keep them in another way than instructions do. Constants are
counted from one in a packed script and are marked by 256 in an instruction, so a
constant operand is moved by 255.
-/

namespace LuaUnpack.Handler

open LuaUnpack.Lua LuaUnpack.Chunk

/-- A correction of operands. -/
inductive Correction where
  | decrementB
  | constantB
  | constantC
  | constantBC
  | skipNext
  /-- An absolute target becomes an offset from the next instruction. -/
  | relativeJump
  | relativePrep
  /-- The left operand moves from `a` to `b`, and `a` becomes the expected result. -/
  | compare (expected : Int32) (leftConstant rightConstant : Bool)
  | test (expected : Int32)
  | testSet (expected : Int32)
  | callArgs
  | callResults
  | callArgsResults
  | returnMultiple
  | clearB
  | listCount
deriving DecidableEq, Repr

namespace Correction

/-- What is added to a constant operand. -/
def constantShift : Int32 := 255

/-- The number of arguments, counted from the called register. -/
def argCount (i : Instruction) : Int32 := i.b - (i.a - 1)

/-- The number of results, counted from the called register. -/
def resultCount (i : Instruction) : Int32 := i.c - (i.a - 2)

/-- Corrects the operands of an instruction. -/
def apply (i : Instruction) : Correction → Instruction
  | decrementB => { i with b := i.b - 1 }
  | constantB => { i with b := i.b + constantShift }
  | constantC => { i with c := i.c + constantShift }
  | constantBC => { i with b := i.b + constantShift, c := i.c + constantShift }
  | skipNext => { i with c := 1 }
  | relativeJump => { i with b := i.b - (i.pc + 1) }
  | relativePrep => { i with b := i.b - (i.pc + 2) }
  | compare expected leftConstant rightConstant =>
    { i with
      a := expected
      b := if leftConstant then i.a + constantShift else i.a
      c := if rightConstant then i.c + constantShift else i.c }
  | test expected => { i with b := 0, c := expected }
  | testSet expected => { i with b := i.c, c := expected }
  | callArgs => { i with b := argCount i }
  | callResults => { i with c := resultCount i }
  | callArgsResults => { i with b := argCount i, c := resultCount i }
  | returnMultiple => { i with b := i.b + 2 }
  | clearB => { i with b := 0 }
  | listCount => { i with b := i.b - i.a }

end Correction

/-- What a handler stands for. -/
structure Resolution where
  opcode : Opcode
  correction : Option Correction
deriving DecidableEq, Repr

/-- An instruction with the operation and the corrected operands of a handler. -/
def Resolution.apply (resolution : Resolution) (i : Instruction) : Instruction :=
  let i := { i with opcode := resolution.opcode }
  match resolution.correction with
  | some correction => correction.apply i
  | none => i

/-- Known handlers by fingerprint. -/
abbrev Catalog := Dict String Resolution

/-- The handlers of the packer. -/
def standardCatalog : Catalog :=
  [("91909190", ⟨.move, none⟩),
   ("1419090", ⟨.loadK, some .decrementB⟩),
   ("91902690", ⟨.loadBool, none⟩),
   ("91902690291529", ⟨.loadBool, some .skipNext⟩),
   ("13909091", ⟨.loadNil, none⟩),
   ("91909290", ⟨.getUpval, none⟩),
   ("91909390", ⟨.getGlobal, some .decrementB⟩),
   ("9190991909190", ⟨.getTable, none⟩),
   ("91909919090", ⟨.getTable, some .constantC⟩),
   ("93909190", ⟨.setGlobal, some .decrementB⟩),
   ("92909190", ⟨.setUpval, none⟩),
   ("9919091909190", ⟨.setTable, none⟩),
   ("99190919090", ⟨.setTable, some .constantC⟩),
   ("99190909190", ⟨.setTable, some .constantB⟩),
   ("991909090", ⟨.setTable, some .constantBC⟩),
   ("919033", ⟨.newTable, none⟩),
   ("909190911591990", ⟨.self, some .constantC⟩),
   ("90919091159199190", ⟨.self, none⟩),
   ("91901591909190", ⟨.add, none⟩),
   ("919015919090", ⟨.add, some .constantC⟩),
   ("919015909190", ⟨.add, some .constantB⟩),
   ("9190159090", ⟨.add, some .constantBC⟩),
   ("91901691909190", ⟨.sub, none⟩),
   ("919016919090", ⟨.sub, some .constantC⟩),
   ("919016909190", ⟨.sub, some .constantB⟩),
   ("9190169090", ⟨.sub, some .constantBC⟩),
   ("91901791909190", ⟨.mul, none⟩),
   ("919017919090", ⟨.mul, some .constantC⟩),
   ("919017909190", ⟨.mul, some .constantB⟩),
   ("9190179090", ⟨.mul, some .constantBC⟩),
   ("91901891909190", ⟨.div, none⟩),
   ("919018919090", ⟨.div, some .constantC⟩),
   ("919018909190", ⟨.div, some .constantB⟩),
   ("9190189090", ⟨.div, some .constantBC⟩),
   ("91901991909190", ⟨.mod, none⟩),
   ("919019919090", ⟨.mod, some .constantC⟩),
   ("919019909190", ⟨.mod, some .constantB⟩),
   ("9190199090", ⟨.mod, some .constantBC⟩),
   ("91902091909190", ⟨.pow, none⟩),
   ("919020919090", ⟨.pow, some .constantC⟩),
   ("919020909190", ⟨.pow, some .constantB⟩),
   ("9190209090", ⟨.pow, some .constantBC⟩),
   ("9190319190", ⟨.unm, none⟩),
   ("9190349190", ⟨.not, none⟩),
   ("9190289190", ⟨.len, none⟩),
   ("909113159032919190", ⟨.concat, none⟩),
   ("2990", ⟨.jmp, some .relativeJump⟩),
   ("101225919091902915292990", ⟨.eq, some (.compare 0 false false)⟩),
   ("1012259190902915292990", ⟨.eq, some (.compare 0 false true)⟩),
   ("1012259091902915292990", ⟨.eq, some (.compare 0 true false)⟩),
   ("10122590902915292990", ⟨.eq, some (.compare 0 true true)⟩),
   ("101226919091902915292990", ⟨.eq, some (.compare 1 false false)⟩),
   ("1012269190902915292990", ⟨.eq, some (.compare 1 false true)⟩),
   ("1012269091902915292990", ⟨.eq, some (.compare 1 true false)⟩),
   ("10122690902915292990", ⟨.eq, some (.compare 1 true true)⟩),
   ("2936352591909190901529", ⟨.eq, some (.compare 1 false false)⟩),
   ("101221919091902915292990", ⟨.lt, some (.compare 0 false false)⟩),
   ("1012219091902915292990", ⟨.lt, some (.compare 0 true false)⟩),
   ("1012219190902915292990", ⟨.lt, some (.compare 0 false true)⟩),
   ("10122190902915292990", ⟨.lt, some (.compare 0 true true)⟩),
   ("101221919091902990291529", ⟨.lt, some (.compare 1 false false)⟩),
   ("1012219091902990291529", ⟨.lt, some (.compare 1 true false)⟩),
   ("1012219190902990291529", ⟨.lt, some (.compare 1 false true)⟩),
   ("10122190902990291529", ⟨.lt, some (.compare 1 true true)⟩),
   ("101223919091902915292990", ⟨.le, some (.compare 0 false false)⟩),
   ("1012239091902915292990", ⟨.le, some (.compare 0 true false)⟩),
   ("1012239190902915292990", ⟨.le, some (.compare 0 false true)⟩),
   ("10122390902915292990", ⟨.le, some (.compare 0 true true)⟩),
   ("101223919091902990291529", ⟨.le, some (.compare 1 false false)⟩),
   ("1012239190902990291529", ⟨.le, some (.compare 1 false true)⟩),
   ("1012239091902990291529", ⟨.le, some (.compare 1 true false)⟩),
   ("10122390902990291529", ⟨.le, some (.compare 1 true true)⟩),
   ("101291902915292990", ⟨.test, some (.test 0)⟩),
   ("10123491902915292990", ⟨.test, some (.test 1)⟩),
   ("9190101229152991902990", ⟨.testSet, some (.testSet 0)⟩),
   ("919010123429152991902990", ⟨.testSet, some (.testSet 1)⟩),
   ("149190", ⟨.call, none⟩),
   ("909114919115", ⟨.call, none⟩),
   ("9091149114511590", ⟨.call, some .callArgs⟩),
   ("9014919115", ⟨.call, none⟩),
   ("90149114511590", ⟨.call, some .callArgs⟩),
   ("9091149114511530", ⟨.call, none⟩),
   ("903314919115139015919", ⟨.call, some .callResults⟩),
   ("90911491", ⟨.call, none⟩),
   ("90141491301615133015919", ⟨.call, none⟩),
   ("901414919115301615133015919", ⟨.call, some .callArgs⟩),
   ("9014149114511590301615133015919", ⟨.call, some .callArgs⟩),
   ("90149114511530", ⟨.call, none⟩),
   ("9033149114511590139015919", ⟨.call, some .callArgsResults⟩),
   ("9033149114511530139015919", ⟨.call, some .callResults⟩),
   ("90331491901315919", ⟨.call, some .callResults⟩),
   ("9014149114511530301615133015919", ⟨.call, none⟩),
   ("9027149114511590", ⟨.tailCall, some .callArgs⟩),
   ("9027149114511530", ⟨.tailCall, none⟩),
   ("27149190", ⟨.tailCall, none⟩),
   ("27", ⟨.ret, none⟩),
   ("279190", ⟨.ret, none⟩),
   ("9027145130", ⟨.ret, none⟩),
   ("902714511590", ⟨.ret, some .returnMultiple⟩),
   ("9027919115", ⟨.ret, none⟩),
   ("909115159191101122102391152990911524911529909115", ⟨.forLoop, some .relativeJump⟩),
   ("909191151011122210122291152990911521911529909115", ⟨.forPrep, some .relativePrep⟩),
   ("909015331491911591139115991012912990291529", ⟨.tForLoop, some .clearB⟩),
   ("909113153014691", ⟨.setList, none⟩),
   ("909113159014691", ⟨.setList, some .listCount⟩),
   ("3313289132899910352512490999", ⟨.close, none⟩),
   ("990331473333927999999913902915299291012259916331991633299152891901483", ⟨.closure, none⟩),
   ("91901489903", ⟨.closure, none⟩),
   ("903016151330941691", ⟨.varArg, none⟩),
   ("909013919416", ⟨.varArg, some .callArgs⟩)]

end LuaUnpack.Handler
