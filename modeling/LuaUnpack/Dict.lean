/-!
# Dictionaries

Small finite maps as lists of pairs in which a key occurs once. `put` keeps the
order in which keys first came in; `putSorted` keeps the keys in ascending order.
With either, the last value of a key counts.
-/

namespace LuaUnpack

/-- A finite map as a list of pairs. -/
abbrev Dict (κ α : Type) := List (κ × α)

namespace Dict

variable {κ α : Type}

/-- The value of a key. -/
def get? [BEq κ] (key : κ) : Dict κ α → Option α
  | [] => none
  | (k, value) :: rest => if k == key then some value else get? key rest

/-- Gives a key a value: in its old place if it has one, at the end otherwise. -/
def put [BEq κ] (key : κ) (value : α) : Dict κ α → Dict κ α
  | [] => [(key, value)]
  | (k, old) :: rest =>
    if k == key then (k, value) :: rest else (k, old) :: put key value rest

/-- Takes a key away. -/
def erase [BEq κ] (key : κ) (dict : Dict κ α) : Dict κ α := dict.filter (·.1 != key)

/-- Puts all pairs of another dictionary, in its order. -/
def putAll [BEq κ] (dict more : Dict κ α) : Dict κ α :=
  more.foldl (fun acc pair => put pair.1 pair.2 acc) dict

/-- Gives a key a value in a dictionary with ascending keys. -/
def putSorted [BEq κ] [LT κ] [DecidableLT κ] (key : κ) (value : α) : Dict κ α → Dict κ α
  | [] => [(key, value)]
  | (k, old) :: rest =>
    if k == key then (k, value) :: rest
    else if key < k then (key, value) :: (k, old) :: rest
    else (k, old) :: putSorted key value rest

end Dict

end LuaUnpack
