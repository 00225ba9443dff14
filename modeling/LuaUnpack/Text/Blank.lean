/-!
# Blank characters

The characters that separate words: the code points with the Unicode property
`White_Space`. Everything that skips or trims blanks in this library uses this
one set, so that a no-break space ends a name as a plain space does.
-/

namespace LuaUnpack.Text

/-- The code points with the property `White_Space`, as closed ranges in
    ascending order. -/
def blankRanges : List (Nat × Nat) :=
  [(0x09, 0x0D), (0x20, 0x20), (0x85, 0x85), (0xA0, 0xA0), (0x1680, 0x1680),
   (0x2000, 0x200A), (0x2028, 0x2029), (0x202F, 0x202F), (0x205F, 0x205F), (0x3000, 0x3000)]

/-- Whether a character separates words. -/
def isBlank (c : Char) : Bool :=
  blankRanges.any fun r => r.1 ≤ c.toNat && c.toNat ≤ r.2

/-- A text without the blanks at its end. -/
def trimRight (s : String) : String :=
  String.ofList (s.toList.reverse.dropWhile isBlank).reverse

/-- A text without the blanks at its start and at its end. -/
def trim (s : String) : String :=
  String.ofList ((s.toList.dropWhile isBlank).reverse.dropWhile isBlank).reverse

/-- A text without the given character at its start and at its end. -/
def trimChar (mark : Char) (s : String) : String :=
  String.ofList ((s.toList.dropWhile (· == mark)).reverse.dropWhile (· == mark)).reverse

/-- The text after `lead`, if it starts with it. -/
def dropLead? (lead s : String) : Option String :=
  if lead.toList.isPrefixOf s.toList then
    some (String.ofList (s.toList.drop lead.length))
  else
    none

end LuaUnpack.Text
