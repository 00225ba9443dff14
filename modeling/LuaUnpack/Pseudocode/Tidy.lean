import LuaUnpack.Text.Blank
import LuaUnpack.Text.Digit

/-!
# Lines that say nothing new

A declaration that only prepares the very next `print` is left out, and so is a
`print` that repeats one above it.
-/

namespace LuaUnpack.Pseudocode

/-- Whether a line prints something. -/
def isPrint (line : String) : Bool := "print(".toList.isPrefixOf line.toList

/-- Whether one text occurs in another. -/
def occursIn (part : List Char) : List Char → Bool
  | [] => part.isEmpty
  | c :: rest => part.isPrefixOf (c :: rest) || occursIn part rest

/-- Whether a line gives `print` another name. -/
def isPrintAlias (line : String) : Bool :=
  "local R".toList.isPrefixOf line.toList && occursIn " = print".toList line.toList

/-- The text between the quotes of a line that declares a register with a string in
    which no quote occurs. -/
def declaredString? (line : String) : Option String := do
  let rest ← Text.dropLead? "local R" line
  let number := rest.toList.takeWhile Text.isDecimalDigit
  let value ← Text.dropLead? " = \"" (String.ofList (rest.toList.dropWhile Text.isDecimalDigit))
  let content := value.toList.takeWhile (· != '"')
  if !number.isEmpty && !content.isEmpty && value.toList.dropWhile (· != '"') == ['"'] then
    some (String.ofList content)
  else
    none

/-- Whether a line only prepares the line after it. -/
def isPreparation (line after : String) : Bool :=
  (isPrintAlias line && isPrint after) ||
    (declaredString? line).any fun content => after == "print(\"" ++ content ++ "\")"

/-- Leaves out the lines that only prepare the next line that stays. -/
def dropPreparations : List String → List String
  | [] => []
  | line :: rest =>
    match dropPreparations rest with
    | [] => [line]
    | after :: kept =>
      if isPreparation line after then after :: kept else line :: after :: kept

/-- Leaves out each `print` that is among those seen or occurs above. -/
def dropRepeats (seen : List String) : List String → List String
  | [] => []
  | line :: rest =>
    if !isPrint line then line :: dropRepeats seen rest
    else if seen.contains line then dropRepeats seen rest
    else line :: dropRepeats (line :: seen) rest

/-- Leaves out the lines that say nothing new. -/
def tidy (lines : List String) : List String := dropRepeats [] (dropPreparations lines)

end LuaUnpack.Pseudocode
