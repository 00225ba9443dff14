import LuaUnpack.Pseudocode.Frame

/-!
# Lines

An instruction changes what registers hold (`next`) and writes at most one line
(`line?`). Lines are written for what has an effect or names something; a value goes
into the lines that use it.
-/

namespace LuaUnpack.Pseudocode

open LuaUnpack.Chunk LuaUnpack.Lua

/-! ## Conditions -/

/-- A condition as it is written after `if`: a comparison, or a value of which truth
    or falsity is wanted. -/
inductive Condition where
  | compare (op : BinaryOp) (left right : String)
  | truth (wanted : Bool) (value : String)
deriving DecidableEq, Repr

/-- A condition as text. -/
def Condition.text : Condition → String
  | compare op left right => left ++ " " ++ op.symbol ++ " " ++ right
  | truth wanted value => if wanted then value else UnaryOp.not.symbol ++ value

/-- The comparison of an operation; a flag other than zero asks for another one. -/
def comparisonOp? (flag : Int32) : Opcode → Option BinaryOp
  | .eq => some (if flag = 0 then .eq else .ne)
  | .lt => some (if flag = 0 then .lt else .gt)
  | .le => some (if flag = 0 then .le else .ge)
  | _ => none

/-- The condition of an instruction that tests something. -/
def condition? (f : Prototype) (frame : Frame) (i : Instruction) : Option Condition :=
  match i.opcode with
  | .test => some (.truth (i.c != 0) (frame.read i.a.toInt))
  | .testSet => some (.truth (i.c != 0) (frame.read i.b.toInt))
  | op => (comparisonOp? i.a op).map fun comparison =>
    .compare comparison (operandText f frame i.b) (operandText f frame i.c)

/-! ## Values -/

/-- The operator of an operation with two operands. -/
def arithmeticOp? : Opcode → Option BinaryOp
  | .add => some .add
  | .sub => some .sub
  | .mul => some .mul
  | .div => some .div
  | .mod => some .mod
  | .pow => some .pow
  | _ => none

/-- The operator of an operation with one operand. -/
def unaryOp? : Opcode → Option UnaryOp
  | .unm => some .negate
  | .not => some .not
  | .len => some .length
  | _ => none

/-- The value that an instruction computes from what registers hold, as text. -/
def value? (f : Prototype) (frame : Frame) (i : Instruction) : Option String :=
  match i.opcode with
  | .loadK => some (constantText f i.b)
  | .loadBool => some (if i.b != 0 then "true" else "false")
  | .getGlobal => some (globalName f i.b)
  | .getUpval => some s!"upvalue{i.b.toInt}"
  | .getTable => some (frame.read i.b.toInt ++ keyText f frame i.c)
  | .concat => some (" .. ".intercalate (frame.readSpan i.b.toInt i.c.toInt))
  | .testSet => some (frame.read i.b.toInt)
  | .closure => some (closureName f i.b)
  | op =>
    match arithmeticOp? op, unaryOp? op with
    | some operator, _ =>
      some (operandText f frame i.b ++ " " ++ operator.symbol ++ " " ++ operandText f frame i.c)
    | none, some operator => (frame.get? i.b.toInt).map (operator.symbol ++ ·)
    | none, none => none

/-! ## Calls -/

/-- The arguments of a call: `count` is one more than their number, and with zero
    they go on up to a value of which only the first place is known. -/
def arguments (frame : Frame) (callee : Register) (count : Int) : List String :=
  let first := callee.shift (if frame.isMethod callee then 2 else 1)
  if count = 0 then (frame.get? first).toList
  else frame.readSpan first ((callee.shift count).shift (-1))

/-- A call of what a register holds. -/
def callText (frame : Frame) (callee : Register) (count : Int) : String :=
  frame.read callee ++ "(" ++ ", ".intercalate (arguments frame callee count) ++ ")"

/-- The function whose result is called at once. -/
def loader : String := "loadstring"

/-- A call whose results are used; what the loader returns is called too. -/
def callValue (frame : Frame) (callee : Register) (count : Int) : String :=
  callText frame callee count ++ (if frame.read callee == loader then "()" else "")

/-- Whether a call whose results are not used can still be referred to. -/
def staysKnown (call : String) : Bool :=
  ["print(", "require(", "loadstring("].any fun lead => lead.toList.isPrefixOf call.toList

/-- The registers that take the results of a call, or further arguments: `count` is
    one more than their number. -/
def results (first : Register) (count : Int) : List Register :=
  span first ((first.shift count).shift (-2))

/-- The variables of a loop over an iterator. -/
def loopRegisters (base : Register) (count : Int) : List Register :=
  span (base.shift 3) ((base.shift 2).shift count)

/-! ## What an instruction does -/

/-- What registers hold after an instruction. -/
def next (f : Prototype) (frame : Frame) (i : Instruction) : Frame :=
  let a : Register := i.a.toInt
  let b := i.b.toInt
  let c := i.c.toInt
  match i.opcode with
  | .move =>
    match frame.get? b with
    | none => frame
    | some text =>
      let moved := frame.hold a text
      if a = b then moved else moved.clear b
  | .loadNil => (span a b).foldl (fun frame r => frame.hold r "nil") frame
  | .newTable => frame.clear a
  | .self =>
    let object := frame.read b
    let held :=
      match fieldName? f i.c with
      | some name => frame.holdMethod a (object ++ ":" ++ name)
      | none => frame.hold a (object ++ keyText f frame i.c)
    held.hold (a.shift 1) object
  | .call =>
    let call := callValue frame a b
    if c = 1 then
      if staysKnown call then frame.hold a call else frame
    else if c = 0 then frame.hold a call
    else (results a c).foldl Frame.clear frame
  | .forPrep =>
    { frame.hold (a.shift 3) s!"i_{frame.fresh}" with fresh := frame.fresh + 1 }
  | .tForLoop => frame.invent "v" (loopRegisters a c)
  | .varArg => if b = 0 then frame.hold a "..." else frame.invent "arg" (results a b)
  | _ =>
    match value? f frame i with
    | some text => frame.hold a text
    | none => frame

/-- The globals that get a line when they are loaded. -/
def knownGlobals : List String :=
  ["print", "warn", "error", "require", "loadstring", "type", "tostring", "tonumber", "next",
   "pairs", "ipairs", "rawget", "rawset", "rawequal", "getfenv", "setfenv"]

/-- The declaration of variables. -/
def declaration (names : List String) (value : String) : String :=
  "local " ++ ", ".intercalate names ++ " = " ++ value

/-- The line that an instruction writes, given what registers hold before it. -/
def line? (f : Prototype) (frame : Frame) (i : Instruction) : Option String :=
  let a : Register := i.a.toInt
  let b := i.b.toInt
  let c := i.c.toInt
  let declare (value : String) : String := declaration [registerName a] value
  match i.opcode with
  | .getGlobal =>
    let name := globalName f i.b
    if knownGlobals.contains name then some (declare name) else none
  | .setGlobal => some (globalName f i.b ++ " = " ++ frame.read a)
  | .getUpval => some (declare s!"upvalue{b}")
  | .setUpval => some (s!"upvalue{b}" ++ " = " ++ frame.read a)
  | .setTable =>
    some (frame.read a ++ keyText f frame i.b ++ " = " ++ operandText f frame i.c)
  | .newTable => some (declare "\x7b\x7d")
  | .eq | .lt | .le | .test | .testSet =>
    (condition? f frame i).map fun condition => "if " ++ condition.text ++ " then"
  | .call =>
    let call := callValue frame a b
    if c = 1 then some call
    else if c = 0 then none
    else some (declaration ((results a c).map registerName) call)
  | .tailCall => some ("return " ++ callText frame a b)
  | .ret =>
    if b = 1 then some "return"
    else if b = 0 then some ("return " ++ frame.read a ++ ", ...")
    else some ("return " ++ ", ".intercalate ((results a b).map frame.read))
  | .forPrep =>
    some (s!"for i_{frame.fresh} = " ++
      ", ".intercalate [frame.read a, frame.read (a.shift 1), frame.read (a.shift 2)] ++ " do")
  | .tForLoop =>
    let names := (frame.invented "v" (loopRegisters a c)).map (·.2)
    some ("for " ++ ", ".intercalate names ++ " in " ++ frame.read a ++ " do")
  | .closure => some (declare (closureName f i.b))
  | .varArg =>
    if b = 0 then none
    else some (declaration ((frame.invented "arg" (results a b)).map (·.2)) "...")
  | op =>
    match unaryOp? op, frame.get? b with
    | some operator, none => some (declare (operator.symbol ++ registerName b))
    | _, _ => none

/-- The lines of instructions, and what registers hold after them. -/
def linesFrom (f : Prototype) (frame : Frame) : List Instruction → List String × Frame
  | [] => ([], frame)
  | i :: rest =>
    let (lines, last) := linesFrom f (next f frame i) rest
    ((line? f frame i).toList ++ lines, last)

end LuaUnpack.Pseudocode
