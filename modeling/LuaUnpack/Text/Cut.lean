/-!
# Cutting text

Text is cut into parts at a character. Lines are such parts: they end with a line feed,
and a carriage return before a line feed belongs to the line end.
-/

namespace LuaUnpack.Text

/-- The parts of a text between the occurrences of a character. -/
def cutAt (mark : Char) : List Char → List (List Char)
  | [] => [[]]
  | c :: rest =>
    if c == mark then [] :: cutAt mark rest
    else
      match cutAt mark rest with
      | [] => [[c]]
      | part :: parts => (c :: part) :: parts

/-- The characters of a line without the carriage return at their end. -/
def dropReturn (line : List Char) : List Char :=
  if line.getLast? == some '\r' then line.dropLast else line

/-- The lines of a text; what follows the last line feed is one if there is any. -/
def lines (text : String) : List String :=
  let parts := cutAt '\n' text.toList
  let last := (parts.getLast?.getD [])
  (parts.dropLast.map dropReturn ++ if last.isEmpty then [] else [last]).map String.ofList

end LuaUnpack.Text
