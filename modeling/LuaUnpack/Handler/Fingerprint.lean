import LuaUnpack.Lua.Node
import LuaUnpack.Text.Numeral

/-!
# Fingerprints of handlers

A handler is recognised by what it does, not by its text: every node of its code
that matters has a tag, and the numbers of the tags, written one after the other,
are its fingerprint.
-/

namespace LuaUnpack.Handler

open LuaUnpack.Lua

/-- What a node does. -/
inductive Tag where
  | instRef | stkRef | upvRef | envRef | varArgRef | unpackRef | insertRef | setMetatableRef
  | wrapProtoRef
  | access
  | ifPart | elseIfPart | elsePart
  | loop
  | call
  | add | sub | mul | div | mod | pow
  | lt | gt | le | ge | eq | ne
  | ret
  | len
  | pcRef | topRef
  | negate | concat | table | not | and | or
deriving DecidableEq, Repr

namespace Tag

/-- The number of a tag. -/
def number : Tag → Nat
  | instRef => 0
  | stkRef => 1
  | upvRef => 2
  | envRef => 3
  | varArgRef => 4
  | unpackRef => 5
  | insertRef => 6
  | setMetatableRef => 7
  | wrapProtoRef => 8
  | access => 9
  | ifPart => 10
  | elseIfPart => 11
  | elsePart => 12
  | loop => 13
  | call => 14
  | add => 15
  | sub => 16
  | mul => 17
  | div => 18
  | mod => 19
  | pow => 20
  | lt => 21
  | gt => 22
  | le => 23
  | ge => 24
  | eq => 25
  | ne => 26
  | ret => 27
  | len => 28
  | pcRef => 29
  | topRef => 30
  | negate => 31
  | concat => 32
  | table => 33
  | not => 34
  | and => 35
  | or => 36

/-- The tag of a variable of the machine. -/
def ofRole? : String → Option Tag
  | "stk" => some stkRef
  | "env" => some envRef
  | "upv" => some upvRef
  | "inst" => some instRef
  | "vararg" => some varArgRef
  | "unpack" => some unpackRef
  | "setmetatable" => some setMetatableRef
  | "pc" => some pcRef
  | "top" => some topRef
  | "wrap_proto" => some wrapProtoRef
  | _ => none

/-- The tag of a binary operator. -/
def ofBinary : BinaryOp → Tag
  | .add => add
  | .sub => sub
  | .mul => mul
  | .div => div
  | .mod => mod
  | .pow => pow
  | .concat => concat
  | .eq => eq
  | .ne => ne
  | .lt => lt
  | .le => le
  | .gt => gt
  | .ge => ge
  | .and => and
  | .or => or

/-- The tag of a unary operator. -/
def ofUnary : UnaryOp → Tag
  | .length => len
  | .negate => negate
  | .not => not

/-- The tags of a statement itself. -/
def ofStmt : Stmt → List Tag
  | .ifThen _ _ otherwise =>
    ifPart :: List.replicate otherwise.elseIfCount elseIfPart
      ++ if otherwise.hasBlock then [elsePart] else []
  | .numericFor .. => [loop]
  | .ret _ => [ret]
  | _ => []

/-- The tags of an expression itself. -/
def ofExpr : Expr → List Tag
  | .name n => (ofRole? n).toList
  | .member owner key => if owner.isName "table" && key == "insert" then [insertRef] else [access]
  | .index .. => [access]
  | .call .. | .methodCall .. => [call]
  | .binary op _ _ => [ofBinary op]
  | .unary op _ => [ofUnary op]
  | .table _ => [table]
  | _ => []

/-- The tags of a node itself. -/
def ofNode : Node → List Tag
  | .stmt s => ofStmt s
  | .expr e => ofExpr e

end Tag

/-- The tags of a block. -/
def tags (block : Block) : List Tag := block.nodes.flatMap Tag.ofNode

/-- Tags as digits. -/
def digitsOf (tags : List Tag) : String :=
  String.join (tags.map fun tag => Text.digits 10 tag.number)

/-- The fingerprint of a block. -/
def fingerprint (block : Block) : String := digitsOf (tags block)

end LuaUnpack.Handler
