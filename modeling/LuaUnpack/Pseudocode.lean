import LuaUnpack.Pseudocode.Line
import LuaUnpack.Pseudocode.Tidy

/-!
# Pseudocode

A program as text for a reader. Each function becomes one block of lines, a function
before those nested in it; jumps are not followed, so that conditions and loops show
only as the lines that open them.
-/

namespace LuaUnpack.Pseudocode

open LuaUnpack.Chunk

/-- How pseudocode is laid out. -/
structure Style where
  /-- What stands before each line of a function. -/
  indent : String := "    "
  /-- Whether a comment with the size of the program stands first. -/
  hasHeader : Bool := true
deriving DecidableEq, Repr

/-- The flag of a function that takes further arguments. -/
def takesMore : UInt8 := 2

/-- The parameters of a function. -/
def parameters (f : Prototype) : List String :=
  (List.range f.numParams.toNat).map (fun k => s!"arg{k}") ++
    if f.isVararg == takesMore then ["..."] else []

/-- The block of a function. -/
def block (style : Style) (f : Prototype) (lines : List String) : String :=
  "function " ++ f.name ++ "(" ++ ", ".intercalate (parameters f) ++ ")\n" ++
    String.join (lines.map fun line => style.indent ++ line ++ "\n") ++ "end\n"

/-- The blocks of functions; `fresh` is the number of the next invented variable. -/
def blocksFrom (style : Style) (fresh : Nat) : List Prototype → String
  | [] => ""
  | f :: rest =>
    let (lines, last) := linesFrom f ⟨[], fresh⟩ f.instructions
    block style f (tidy lines) ++ blocksFrom style last.fresh rest

/-- A comment with the size of a program. -/
def header (root : Prototype) : String :=
  s!"-- Devirtualized pseudocode: {root.functionCount} function(s), " ++
    s!"{root.instructionCount} instruction(s)\n\n"

/-- The pseudocode of a program; one without a name gets names first. -/
def render (style : Style) (root : Prototype) : String :=
  let root := if root.name.isEmpty then root.assignNames else root
  let head := if style.hasHeader then header root else ""
  Text.trimRight (head ++ blocksFrom style 0 root.all)

end LuaUnpack.Pseudocode
