import LuaUnpack.Text.Cut

/-!
# Files

What the program sees of files: what stands at a path, and whether a file can be
written there. The program works with any `Disk`.
-/

namespace LuaUnpack

/-- What stands at a path. -/
inductive Entry where
  | missing
  | directory
  /-- Something that keeps nothing and has nothing to read. -/
  | device
  | file (bytes : List UInt8)
deriving DecidableEq, Repr

/-- Why a file cannot be read or written. -/
inductive FileFault where
  | noSuchFile
  | notADirectory
  | isADirectory
  | noSpace
  | nameTooLong
  | zeroInName
  | other (text : String)
deriving DecidableEq, Repr

/-- The message for a fault. -/
def FileFault.message : FileFault → String
  | noSuchFile => "No such file or directory (os error 2)"
  | notADirectory => "Not a directory (os error 20)"
  | isADirectory => "Is a directory (os error 21)"
  | noSpace => "No space left on device (os error 28)"
  | nameTooLong => "File name too long (os error 36)"
  | zeroInName => "file name contained an unexpected NUL byte"
  | other text => text

/-- The bytes of what stands at a path. -/
def Entry.read : Entry → Except FileFault (List UInt8)
  | missing => .error .noSuchFile
  | directory => .error .isADirectory
  | device => .ok []
  | file bytes => .ok bytes

/-- How a program reaches files. -/
structure Disk (m : Type → Type) where
  /-- What stands at a path. -/
  look : String → m Entry
  /-- Writes a file. -/
  write : String → List UInt8 → m (Except FileFault Unit)

/-- The names in a path, in order. -/
def pathNames (path : String) : List String :=
  ((Text.cutAt '/' path.toList).filter (!·.isEmpty)).map String.ofList

end LuaUnpack
