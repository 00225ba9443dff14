import LuaUnpack.Dispatch.Cascade
import LuaUnpack.Lua.Mapper

/-!
# Straightening control flow

A packed script runs its code through loops that only serve to hide the order of
the statements. Loops over a state are replaced by the bodies in the order of their
states, loops that run once become an `if`, and what follows the end of a block is
cut off.
-/

namespace LuaUnpack.Script

open LuaUnpack.Lua

namespace Flow

/-- Whether a statement ends a loop that runs once. -/
def isTerminator : Stmt → Bool
  | .exit | .block _ => true
  | _ => false

/-- Whether a statement leaves a block. -/
def isJump : Stmt → Bool
  | .exit | .label _ | .goto _ => true
  | _ => false

/-- Whether a loop runs once: its body ends with a terminator, or starts with an
    `if` whose first block does. -/
def isSingleShot (body : Block) : Bool :=
  body.getLast?.any isTerminator ||
    match body with
    | .ifThen _ inner _ :: _ => inner.getLast?.any isTerminator
    | _ => false

/-- Whether a block starts with an `if` and ends with a label. -/
def isGuardedJump : Block → Bool
  | .ifThen .. :: rest =>
    match rest.getLast? with
    | some (.label _) => true
    | _ => false
  | _ => false

/-- The statements up to the one that leaves the block. -/
def beforeJump (body : Block) : Block := body.takeWhile fun s => !isJump s

/-- The choice that a block makes which starts with an `if`: its first block or what
    follows it, each up to where the block is left. -/
def choice? : Block → Option Stmt
  | .ifThen condition body _ :: rest =>
    some (.ifThen condition (beforeJump body) (.block (beforeJump rest)))
  | _ => none

/-- The block of a statement that only makes a choice. -/
def choiceBlock? : Stmt → Option Block
  | .repeatLoop body (.boolean true) => some body
  | .numericFor _ _ _ _ body => if isSingleShot body then some body else none
  | .ifThen _ body _ => if isGuardedJump body then some body else none
  | _ => none

/-- A statement with its choice made plain. -/
def straighten (stmt : Stmt) : Stmt := ((choiceBlock? stmt).bind choice?).getD stmt

/-- Whether nothing after a statement is run. -/
def endsBlock : Stmt → Bool
  | .block _ | .ret _ | .exit => true
  | _ => false

/-- A block up to the first statement after which nothing is run. -/
def cutUnreachable : Block → Block
  | [] => []
  | s :: rest => if endsBlock s then [s] else s :: cutUnreachable rest

/-- The state and the dispatch of a loop over a state: a `while` that compares a
    name with -1, or a counting loop between two numbers whose body is an `if`. -/
def stateMachine? : Stmt → Option (String × Stmt)
  | .whileLoop (.binary _ (.name state) (.number x)) (tree :: _) =>
    if x == -1 then some (state, tree) else none
  | .numericFor var (.number _) (.number _) _ [.ifThen condition body otherwise] =>
    some (var, .ifThen condition body otherwise)
  | _ => none

/-- A computation that counts solved loops. -/
abbrev Solving := StateT Nat (Except Dispatch.Error)

/-- The statements that a statement stands for: the bodies of its states if it is a
    loop over a state. -/
def unfold (stmt : Stmt) : Solving Block :=
  match stateMachine? stmt with
  | none => pure [stmt]
  | some (state, tree) => do
    let solved ← (Dispatch.solve state tree : Except Dispatch.Error _)
    modify (· + 1)
    return solved.flatMap (·.2)

/-- Unfolds the statements of a block. -/
def unfoldAll : Block → Solving Block
  | [] => pure []
  | s :: rest => do
    let first ← unfold s
    return first ++ (← unfoldAll rest)

/-- Straightens statements and blocks from the inside to the outside. -/
def mapper : Mapper Solving where
  stmt _ inner := do return straighten (← inner)
  block inner := do return cutUnreachable (← unfoldAll (← inner))

end Flow

/-- Straightens the control flow of a block; the second result counts the loops over
    a state. -/
def straightenFlow (block : Block) : Except Dispatch.Error (Block × Nat) :=
  (Flow.mapper.onBlock block).run 0

end LuaUnpack.Script
