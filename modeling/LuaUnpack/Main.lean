import LuaUnpack.Cli

/-!
# The program

The command line on the machine that it is called on.
-/

namespace LuaUnpack

/-- Why a file cannot be written, as the machine says it. -/
def FileFault.ofError : IO.Error → FileFault
  | .noFileOrDirectory .. => .noSuchFile
  | .inappropriateType _ 20 _ => .notADirectory
  | .inappropriateType _ 21 _ => .isADirectory
  | .resourceExhausted _ 28 _ => .noSpace
  | .invalidArgument _ 36 _ => .nameTooLong
  | error => .other (toString error)

/-- Whether a path leads to a device. -/
def isDevice (path : String) : Bool :=
  path.startsWith "/" && (pathNames path).head? == some "dev" && 1 < (pathNames path).length

/-- What stands at a path of the machine. -/
def lookAt (path : String) : IO Entry := do
  if isDevice path then
    return .device
  try
    return .file (← IO.FS.readBinFile path).toList
  catch
    | .inappropriateType .. => return .directory
    | _ => return .missing

/-- Writes a file of the machine. -/
def writeTo (path : String) (bytes : List UInt8) : IO (Except FileFault Unit) := do
  try
    IO.FS.writeBinFile path (ByteArray.mk bytes.toArray)
    return .ok ()
  catch error => return .error (.ofError error)

/-- Says a line in one of the places for it. -/
def sayIn (place : IO IO.FS.Stream) (line : String) : IO Unit := do
  (← place).putStr (line ++ "\n")
  (← place).flush

/-- The machine that the program runs on. -/
def machineHost : Host IO where
  look := lookAt
  write := writeTo
  say := sayIn IO.getStdout
  tell := sayIn IO.getStderr
  clock := IO.monoMsNow

end LuaUnpack

open LuaUnpack in
/-- Runs the program. -/
def main (arguments : List String) : IO UInt32 := do
  return UInt32.ofNat (← Cli.run machineHost arguments)
