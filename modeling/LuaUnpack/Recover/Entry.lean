import LuaUnpack.Recover.Warning

/-!
# Removing the entry check

A packed program starts with a check of itself, which compares something with a text
that names the packer. The check and everything up to its return are removed, with
the prototypes that only it used.
-/

namespace LuaUnpack.Recover

open LuaUnpack.Chunk

/-- The text that a packer leaves if nothing else is said. -/
def defaultMarker : String := "This file was protected with MoonSec V3"

/-- Whether an instruction compares with a text that starts with the marker. -/
def isCheck (root : Prototype) (marker : String) (i : Instruction) : Bool :=
  i.opcode == .eq && 255 < i.c.toInt &&
    ((root.constant? (i.c - 256)).bind Constant.asString?).any fun s =>
      marker.toList.isPrefixOf s.toList

/-- The code after the first return of a list. -/
def afterReturn? : List Instruction → Option (List Instruction)
  | [] => none
  | i :: rest => if i.opcode == .ret then some rest else afterReturn? rest

/-- The prototypes that closures of the code refer to. -/
def usedFunctions (code : List Instruction) : List Int :=
  (code.filter (·.opcode == .closure)).map (·.b.toInt)

/-- The indices of prototypes that stay, in order. -/
def keptIndices (code : List Instruction) (count : Nat) : List Nat :=
  (List.range count).filter fun (k : Nat) => (usedFunctions code).contains (k : Int)

/-- A closure with the new index of its prototype. -/
def renumber (kept : List Nat) (i : Instruction) : Instruction :=
  if i.opcode == .closure && 0 ≤ i.b.toInt then
    match kept.idxOf? i.b.toInt.toNat with
    | some k => { i with b := Int32.ofNat k }
    | none => i
  else
    i

/-- A prototype without those in it that its code does not use. -/
def dropUnused (root : Prototype) : Prototype :=
  let kept := keptIndices root.instructions root.functions.length
  { root with
    instructions := root.instructions.map (renumber kept)
    functions := kept.filterMap fun k => root.functions[k]? }

/-- Removes the entry check of a program, if it has one. -/
def trimEntry (marker : String) (root : Prototype) : Prototype :=
  match root.instructions.dropWhile (!isCheck root marker ·) with
  | [] => root
  | check =>
    let instructions := (afterReturn? check).getD root.instructions
    dropUnused { root with instructions }

end LuaUnpack.Recover
