import LuaUnpack.Lua.Tree

/-!
# Windows of a handler

A handler can do the work of several instructions. Between them it steps to the next
instruction by two statements: it increments the counter and fetches the instruction.
A window is what stands between two such pairs.
-/

namespace LuaUnpack.Handler

open LuaUnpack.Lua

/-! ## Splitting lists -/

/-- An item put in front of the first segment. -/
def consHead {α : Type} (item : α) : List (List α) → List (List α)
  | [] => [[item]]
  | segment :: rest => (item :: segment) :: rest

/-- The segments of a list between adjacent pairs that are a boundary; the pairs
    belong to no segment, and the leftmost pair counts first. -/
def segments {α : Type} (boundary : α → α → Bool) : List α → List (List α)
  | [] => [[]]
  | [item] => [[item]]
  | p :: c :: rest =>
    if boundary p c then [] :: segments boundary rest
    else consHead p (segments boundary (c :: rest))

/-- The segments that are not empty. -/
def splitWindows {α : Type} (boundary : α → α → Bool) (items : List α) : List (List α) :=
  (segments boundary items).filter (!·.isEmpty)

/-! ## Handlers -/

/-- Whether an expression is the counter or a number. -/
def isCounterOrNumber : Expr → Bool
  | .name n => n == "pc"
  | .number _ => true
  | _ => false

/-- Whether a statement increments the counter. -/
def isCounterIncrement : Stmt → Bool
  | .assign [target] [.binary .add left right] =>
    target.isName "pc" && isCounterOrNumber left && isCounterOrNumber right
  | _ => false

/-- Whether a statement fetches an instruction. -/
def isFetch : Stmt → Bool
  | .assign [target] [.index table _] => target.isName "inst" && table.isName "insts"
  | _ => false

/-- Whether two statements step to the next instruction. -/
def isStep (first second : Stmt) : Bool := isCounterIncrement first && isFetch second

/-- The windows of the code for a state. -/
def windows (body : Block) : List Block := splitWindows isStep body

end LuaUnpack.Handler
