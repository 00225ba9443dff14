import LuaUnpack.Files

/-!
# What a program is run on

Files, two places to say something, and a clock. The command line is written for any
such host: a real machine, or a `Machine` that is a plain value.
-/

namespace LuaUnpack

/-- What a program needs of the machine it runs on. -/
structure Host (m : Type → Type) extends Disk m where
  /-- Says a line about results. -/
  say : String → m Unit
  /-- Says a line about everything else. -/
  tell : String → m Unit
  /-- The time in milliseconds. -/
  clock : m Nat

end LuaUnpack
