import LuaUnpack.Recover.Warning

/-!
# Restoring jumps

Padding is removed from the code, a comparison that is followed by two jumps gets the
opposite polarity and loses the first jump, and every tail call is followed by a
return. While instructions go away and come in, jumps are kept as pairs of
identities; in the end they become offsets again.
-/

namespace LuaUnpack.Recover

open LuaUnpack.Chunk

/-- Jumps as pairs of identities: the jump and the instruction it leads to. -/
abbrev References := List (Nat × Nat)

/-- The jumps of instructions from an index on, in the whole code. -/
def referencesFrom (code : List Instruction) (index : Nat) :
    List Instruction → Except Chunk.Error References
  | [] => .ok []
  | i :: rest =>
    if i.isDead || !i.opcode.isJump then referencesFrom code (index + 1) rest
    else
      let target := (index : Int) + i.b.toInt + 1
      match if target < 0 then none else code[target.toNat]? with
      | none => .error (.jumpOutOfRange index target)
      | some destination => do
        return (i.id, destination.id) :: (← referencesFrom code (index + 1) rest)

/-- The jumps of the code. -/
def references (code : List Instruction) : Except Chunk.Error References :=
  referencesFrom code 0 code

/-- Jumps with their targets changed. -/
def retarget (change : Nat → Nat) (refs : References) : References :=
  refs.map fun ref => (ref.1, change ref.2)

/-! ## Padding -/

/-- The instruction to which control goes in place of a removed one: the next that
    stays, if there is one. -/
def successor (code : List Instruction) (id : Nat) : Nat :=
  match code.dropWhile (·.id != id) with
  | i :: rest => if i.isDead then ((rest.find? (!·.isDead)).map (·.id)).getD id else id
  | [] => id

/-- The code without padding. -/
def dropDead (code : List Instruction) : List Instruction := code.filter (!·.isDead)

/-! ## Comparisons -/

/-- Whether an instruction is a test that can be turned around. -/
def isTest (i : Instruction) : Bool := i.opcode.isComparison || i.opcode == .test

/-- The opposite of a polarity. -/
def flipped (n : Int32) : Int32 := if n = 1 then 0 else 1

/-- A test with the opposite polarity. -/
def flipTest (i : Instruction) : Instruction :=
  if i.opcode = .test then { i with c := flipped i.c } else { i with a := flipped i.a }

/-- The jumps after the first of two adjacent jumps has been removed. -/
def forgetJump (removed next : Nat) (refs : References) : References :=
  retarget (fun target => if target = removed then next else target)
    (refs.filter fun ref => ref.1 != removed)

/-- Turns around each test that is followed by two jumps and removes the first of
    them. -/
def dropFlips : List Instruction → References → List Instruction × References
  | i :: j :: k :: rest, refs =>
    if isTest i && j.opcode == .jmp && k.opcode == .jmp then
      let (code, refs) := dropFlips (k :: rest) (forgetJump j.id k.id refs)
      (flipTest i :: code, refs)
    else
      let (code, refs) := dropFlips (j :: k :: rest) refs
      (i :: code, refs)
  | code, refs => (code, refs)
termination_by code => code.length

/-! ## Tail calls -/

/-- An identity that no instruction has. -/
def freshId (code : List Instruction) : Nat := code.foldl (fun n i => max n (i.id + 1)) 0

/-- Puts a return after each tail call that has none; the returns get identities from
    a number on. -/
def addReturns (next : Nat) : List Instruction → List Instruction
  | [] => []
  | i :: rest =>
    if i.opcode == .tailCall && (rest.head?.map (·.opcode)) != some .ret then
      i :: .ofOpcode next .ret i.a 0 0 :: addReturns (next + 1) rest
    else
      i :: addReturns next rest

/-! ## Offsets -/

/-- The index of the instruction with an identity. -/
def position? (code : List Instruction) (id : Nat) : Option Nat := code.findIdx? (·.id == id)

/-- The instruction at an index with the offset to its target. -/
def setOffset (code : List Instruction) (refs : References) (index : Nat) (i : Instruction) :
    Instruction × List Warning :=
  match refs.lookup i.id with
  | none => (i, [])
  | some target =>
    match position? code target with
    | some position => ({ i with b := Int32.ofInt ((position : Int) - (index + 1)) }, [])
    | none => (i, [.lostTarget index i.b])

/-- The code with offsets to the targets of its jumps. -/
def setOffsets (code : List Instruction) (refs : References) : List Instruction × List Warning :=
  let results := code.zipIdx.map fun (i, index) => setOffset code refs index i
  (results.map (·.1), results.flatMap (·.2))

/-! ## All together -/

/-- Restores the jumps of a function. -/
def restoreCode (code : List Instruction) :
    Except Chunk.Error (List Instruction × List Warning) := do
  let refs ← references code
  let (kept, refs) := dropFlips (dropDead code) (retarget (successor code) refs)
  let code := addReturns (freshId code) kept
  return setOffsets code refs

/-- Restores the jumps of a program. -/
def restoreControlFlow (root : Prototype) : Step Prototype :=
  root.mapBody fun code constants => do
    return (← Step.noting (← (restoreCode code : Except Chunk.Error _)), constants)

end LuaUnpack.Recover
