import LuaUnpack.Decimal.Binary64
import LuaUnpack.Dispatch.Path

/-!
# Cascades of conditions

A dispatch inside a script is an `if` whose conditions compare the state with
numbers. The parts of the `if` are again such cascades as long as they consist of a
single `if` on the state.
-/

namespace LuaUnpack.Dispatch

open LuaUnpack.Lua

/-- A tree of tests with code at its leaves. -/
inductive Cascade where
  | leaf (body : Block)
  | branch (test : Test) (yes no : Cascade)

namespace Cascade

/-- The code for a state. -/
def follow : Cascade → Int → Block
  | leaf body, _ => body
  | branch test yes no, state => if test.holds state then yes.follow state else no.follow state

/-- Every test, a test before those below it. -/
def tests : Cascade → List Test
  | leaf _ => []
  | branch test yes no => test :: yes.tests ++ no.tests

/-- What lies below a test with an outcome, given the path above the test. -/
def leavesBelow (above : List (Test × Bool)) (test : Test) (outcome : Bool) :
    Cascade → List Leaf
  | leaf body => [⟨test.range outcome, ⟨(test, outcome) :: above, .root⟩, body⟩]
  | branch next yes no =>
    let steps := (test, outcome) :: above
    leavesBelow steps next true yes ++ leavesBelow steps next false no

/-- The pieces of code below the first test. -/
def leaves : Cascade → List Leaf
  | leaf _ => []
  | branch test yes no => leavesBelow [] test true yes ++ leavesBelow [] test false no

/-- The bodies of a cascade by state. -/
def solve (cascade : Cascade) : Except Error (Dict Int Block) := do
  cascade.tests.forM Test.check
  solveLeaves cascade.leaves

/-! ## From scripts -/

/-- The test that a condition makes; its left side is taken to be the state. -/
def testOf (condition : Expr) : Except Error Test :=
  match condition with
  | .binary op _ (.number x) => .ok ⟨op, (Decimal.Binary64.toInt64 x).toInt⟩
  | _ => .error (.unexpectedCondition condition.print)

/-- Whether a condition has the state on its left. -/
def testsState (state : String) : Expr → Bool
  | .binary _ left _ => left.isName state
  | _ => false

mutual

/-- The cascade of a block: a branch if it is a single `if` on the state. -/
def ofBlock (state : String) : List Stmt → Except Error Cascade
  | [stmt] => ofOnly state stmt
  | body => .ok (.leaf body)

/-- The cascade of a block with one statement. -/
def ofOnly (state : String) : Stmt → Except Error Cascade
  | .ifThen condition body otherwise =>
    if testsState state condition then do
      let test ← testOf condition
      let yes ← ofBlock state body
      return .branch test yes (← ofElse state otherwise)
    else
      .ok (.leaf [.ifThen condition body otherwise])
  | stmt => .ok (.leaf [stmt])

/-- The cascade of what follows the first block of an `if`. -/
def ofElse (state : String) : Else → Except Error Cascade
  | .done => .ok (.leaf [])
  | .block body => ofBlock state body
  | .elseIf condition body otherwise => do
    let test ← testOf condition
    let yes ← ofBlock state body
    return .branch test yes (← ofElse state otherwise)

end

/-- The cascade of a statement, which has to be an `if`. -/
def ofStmt (state : String) : Stmt → Except Error Cascade
  | .ifThen condition body otherwise => do
    let test ← testOf condition
    let yes ← ofBlock state body
    return .branch test yes (← ofElse state otherwise)
  | stmt => .error (.notABranch stmt.kindName)

end Cascade

/-- The bodies of a dispatch statement by state. -/
def solve (state : String) (stmt : Stmt) : Except Error (Dict Int Block) := do
  (← Cascade.ofStmt state stmt).solve

end LuaUnpack.Dispatch
