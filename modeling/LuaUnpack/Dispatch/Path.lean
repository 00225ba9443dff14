import LuaUnpack.Dict
import LuaUnpack.Lua.Printer
import LuaUnpack.Width

/-!
# Tests on a state

A dispatch compares a state with constants until only the code for that state is
left. Which states lead to a piece of code is found from the last test before it:
that test gives a few candidates, and the one is taken that passes all tests on the
way. The constants are those of a search for neighbouring integers, so the
candidates lie next to the constant and are not negative.
-/

namespace LuaUnpack.Dispatch

open LuaUnpack.Lua

/-- Why a dispatch cannot be solved. -/
inductive Error where
  | notABranch (kind : String)
  | unexpectedCondition (text : String)
  | unsupportedOperator (symbol : String)
  | unresolvedRange (min max : Int)
  | missingVertex
deriving DecidableEq, Repr

/-- The message for an error. -/
def Error.message : Error → String
  | notABranch kind => s!"Range tree root is not an if statement: {kind}"
  | unexpectedCondition text => s!"Expected `<state> <op> <number>` comparison, found: {text}"
  | unsupportedOperator symbol => s!"Unsupported comparison operator '{symbol}' in range tree"
  | unresolvedRange min max => s!"Range [{min}, {max}] did not collapse to a single state"
  | missingVertex => "Range graph vertex does not exist"

/-- A comparison of the state with a constant. -/
structure Test where
  op : BinaryOp
  constant : Int
deriving DecidableEq, Repr

namespace Test

/-- Whether a test holds for a state; an operator that does not compare never
    holds. -/
def holds (test : Test) (state : Int) : Bool :=
  match test.op with
  | .eq => state == test.constant
  | .ne => state != test.constant
  | .lt => state < test.constant
  | .gt => test.constant < state
  | .le => state ≤ test.constant
  | .ge => test.constant ≤ state
  | _ => false

/-- The largest state. -/
def maxState : Int := maxSigned 64

/-- The closed range of candidates for what is reached when a test has the given
    outcome. -/
def range (test : Test) (outcome : Bool) : Int × Int :=
  let c := test.constant
  let below := max (c - 1) 0
  let above := min (c + 1) maxState
  match test.op, outcome with
  | .eq, true | .ne, false => (c, c)
  | .eq, false | .ne, true => (below, above)
  | .lt, true => (below, below)
  | .gt, true => (above, above)
  | .le, false => (above, above)
  | .ge, false => (below, below)
  | _, _ => (c, c)

/-- Refuses an operator that does not compare. -/
def check (test : Test) : Except Error Unit :=
  if test.op.isComparison then .ok () else .error (.unsupportedOperator test.op.symbol)

end Test

/-- Where the way up from a piece of code ends: at the root, at something that
    makes no test, or at a vertex that does not exist. -/
inductive Top where
  | root
  | blocked
  | missing
deriving DecidableEq, Repr

/-- The tests on the way up from a piece of code, the last one first, with the
    outcome that leads to it. -/
structure Path where
  steps : List (Test × Bool)
  top : Top := .root

namespace Path

/-- Whether a state passes all tests of a path. -/
def passes (path : Path) (state : Int) : Bool :=
  path.steps.all fun step => step.1.holds state == step.2

/-- Whether a state leads from the root along a path. What lies above the tests
    matters only to a state that passes them. -/
def admits (path : Path) (state : Int) : Except Error Bool :=
  if path.passes state then
    match path.top with
    | .root => .ok true
    | .blocked => .ok false
    | .missing => .error .missingVertex
  else
    .ok false

end Path

/-- A piece of code with the candidates for its state and the path to it. -/
structure Leaf where
  candidates : Int × Int
  path : Path
  body : Block

namespace Leaf

/-- The first of some states that leads along a path. -/
def firstAdmitted (path : Path) : List Int → Except Error (Option Int)
  | [] => .ok none
  | state :: rest => do
    if ← path.admits state then
      return some state
    else
      firstAdmitted path rest

/-- The integers of a closed range. -/
def statesIn (range : Int × Int) : List Int :=
  (List.range (range.2 - range.1 + 1).toNat).map fun (k : Nat) => range.1 + (k : Int)

/-- The state of a piece of code, if one of its candidates leads to it. -/
def state? (leaf : Leaf) : Except Error (Option Int) :=
  if leaf.candidates.2 < leaf.candidates.1 then
    .error (.unresolvedRange leaf.candidates.1 leaf.candidates.2)
  else
    firstAdmitted leaf.path (statesIn leaf.candidates)

end Leaf

/-- Bodies by state, in ascending order; if two have the same state, the later one
    counts. -/
def collect (found : List (Option Int × Block)) : Dict Int Block :=
  found.foldl (fun dict pair =>
    match pair.1 with
    | some state => dict.putSorted state pair.2
    | none => dict) []

/-- The bodies of pieces of code by state. -/
def solveLeaves (leaves : List Leaf) : Except Error (Dict Int Block) := do
  let found ← leaves.mapM fun leaf => do return (← leaf.state?, leaf.body)
  return collect found

end LuaUnpack.Dispatch
