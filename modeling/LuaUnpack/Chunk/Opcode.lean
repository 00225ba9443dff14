/-!
# Operations of the machine

The operations in the order of their codes, with `unknown` for one that has not
been identified, and which operands each of them stores in an instruction word.
-/

namespace LuaUnpack.Chunk

/-- An operation. -/
inductive Opcode where
  | move | loadK | loadBool | loadNil | getUpval | getGlobal | getTable | setGlobal
  | setUpval | setTable | newTable | self | add | sub | mul | div | mod | pow | unm | not
  | len | concat | jmp | eq | lt | le | test | testSet | call | tailCall | ret | forLoop
  | forPrep | tForLoop | setList | close | closure | varArg
  | unknown
deriving DecidableEq, Repr

/-- The operands that an instruction word stores: `bx` is a wide `b`, and `sbx` a
    wide one with a sign. -/
inductive Layout where
  | a | ab | ac | abc | abx | asbx | sbx
deriving DecidableEq, Repr

namespace Opcode

/-- The operations with a code, by code. -/
def all : List Opcode :=
  [move, loadK, loadBool, loadNil, getUpval, getGlobal, getTable, setGlobal, setUpval, setTable,
   newTable, self, add, sub, mul, div, mod, pow, unm, not, len, concat, jmp, eq, lt, le, test,
   testSet, call, tailCall, ret, forLoop, forPrep, tForLoop, setList, close, closure, varArg]

/-- The operation with a code. -/
def ofCode? (code : Nat) : Option Opcode := all[code]?

/-- The code of an operation; an unidentified one has a code that no operation
    uses. -/
def code : Opcode → Nat
  | move => 0
  | loadK => 1
  | loadBool => 2
  | loadNil => 3
  | getUpval => 4
  | getGlobal => 5
  | getTable => 6
  | setGlobal => 7
  | setUpval => 8
  | setTable => 9
  | newTable => 10
  | self => 11
  | add => 12
  | sub => 13
  | mul => 14
  | div => 15
  | mod => 16
  | pow => 17
  | unm => 18
  | not => 19
  | len => 20
  | concat => 21
  | jmp => 22
  | eq => 23
  | lt => 24
  | le => 25
  | test => 26
  | testSet => 27
  | call => 28
  | tailCall => 29
  | ret => 30
  | forLoop => 31
  | forPrep => 32
  | tForLoop => 33
  | setList => 34
  | close => 35
  | closure => 36
  | varArg => 37
  | unknown => 63

/-- The operands that an operation stores. -/
def layout : Opcode → Layout
  | move | loadNil | getUpval | setUpval | unm | not | len | ret | varArg => .ab
  | loadK | getGlobal | setGlobal | closure => .abx
  | jmp => .sbx
  | test | tForLoop => .ac
  | forPrep | forLoop => .asbx
  | close => .a
  | _ => .abc

/-- Whether an operation compares two values. -/
def isComparison : Opcode → Bool
  | eq | lt | le => true
  | _ => false

/-- Whether the operand `b` of an operation is a relative jump. -/
def isJump : Opcode → Bool
  | jmp | forLoop | forPrep => true
  | _ => false

/-- Whether an operation calculates with two numbers. -/
def isArithmetic : Opcode → Bool
  | add | sub | mul | div | mod | pow => true
  | _ => false

/-- The name of an operation in listings. -/
def name : Opcode → String
  | move => "MOVE"
  | loadK => "LOADK"
  | loadBool => "LOADBOOL"
  | loadNil => "LOADNIL"
  | getUpval => "GETUPVAL"
  | getGlobal => "GETGLOBAL"
  | getTable => "GETTABLE"
  | setGlobal => "SETGLOBAL"
  | setUpval => "SETUPVAL"
  | setTable => "SETTABLE"
  | newTable => "NEWTABLE"
  | self => "SELF"
  | add => "ADD"
  | sub => "SUB"
  | mul => "MUL"
  | div => "DIV"
  | mod => "MOD"
  | pow => "POW"
  | unm => "UNM"
  | not => "NOT"
  | len => "LEN"
  | concat => "CONCAT"
  | jmp => "JMP"
  | eq => "EQ"
  | lt => "LT"
  | le => "LE"
  | test => "TEST"
  | testSet => "TESTSET"
  | call => "CALL"
  | tailCall => "TAILCALL"
  | ret => "RETURN"
  | forLoop => "FORLOOP"
  | forPrep => "FORPREP"
  | tForLoop => "TFORLOOP"
  | setList => "SETLIST"
  | close => "CLOSE"
  | closure => "CLOSURE"
  | varArg => "VARARG"
  | unknown => "UNKNOWN"

/-- The operation with a name. -/
def ofName? (text : String) : Option Opcode := (all ++ [unknown]).find? (·.name == text)

end Opcode

end LuaUnpack.Chunk
