import LuaUnpack.Lua.Token
import LuaUnpack.Lua.Tree

/-!
# From trees to text

A tree is first laid out as a list of pieces, which are the tokens it is written
with and the blanks between them, and the text is the pieces one after the other.
Parentheses are written where the operators around an operand would otherwise take
it apart. Every statement is a line of its own; a function inside an expression is
indented by one step, wherever it stands.
-/

namespace LuaUnpack.Lua

/-- A part of a printed script. -/
inductive Piece where
  | token (kind : TokenKind)
  | space (text : String)

namespace Literal

/-- A literal as it is written. A long string that starts with a line end gets one
    more, because the first one is not part of a long string. -/
def spelling (literal : Literal) : String :=
  match literal.delimiter with
  | .double => "\"" ++ literal.raw ++ "\""
  | .single => "'" ++ literal.raw ++ "'"
  | .long level =>
    let bars := Text.repeated level "="
    let lineEnd := if literal.raw.toList.head? == some '\n' then "\n" else ""
    "[" ++ bars ++ "[" ++ lineEnd ++ literal.raw ++ "]" ++ bars ++ "]"

end Literal

namespace Piece

/-- The text of a piece; a number is written without its sign. -/
def text : Piece → String
  | token (.name n) => n
  | token (.number x) =>
    match Decimal.Binary64.ofFloat x with
    | .finite _ m q => Decimal.magnitudeText m q
    | _ => ""
  | token (.string literal) => literal.spelling
  | token (.keyword word) => word.text
  | token (.symbol sign) => sign.text
  | token .eof => ""
  | space s => s

/-- The text of pieces. -/
def render (pieces : List Piece) : String := String.join (pieces.map text)

/-- A symbol as a piece. -/
def sym (sign : Symbol) : Piece := token (.symbol sign)

/-- A keyword as a piece. -/
def kw (word : Keyword) : Piece := token (.keyword word)

/-- A name as a piece. -/
def ident (name : String) : Piece := token (.name name)

/-- One blank. -/
def blank : Piece := space " "

/-- A comma and a blank. -/
def comma : List Piece := [sym .comma, blank]

/-- Names with commas between them. -/
def names : List String → List Piece
  | [] => []
  | [n] => [ident n]
  | n :: rest => ident n :: comma ++ names rest

/-- Pieces between parentheses. -/
def inParens (pieces : List Piece) : List Piece := sym .leftParen :: pieces ++ [sym .rightParen]

/-- Pieces on a line of their own. -/
def line (indent : String) (level : Nat) (pieces : List Piece) : List Piece :=
  space (Text.repeated level indent) :: pieces ++ [space "\n"]

end Piece

open Piece

/-! ## Numbers and operators -/

/-- A float without its sign. -/
def unsigned (x : Float) : Float := Float.ofBits (x.toBits &&& 0x7FFFFFFFFFFFFFFF)

/-- Zero as a literal reads it. -/
def zero : Float := Float.ofBits 0

/-- The pieces of a number. Infinity and what is no number have no literal, and
    negative zero is written as zero. -/
def numberPieces (x : Float) : List Piece :=
  match Decimal.Binary64.ofFloat x with
  | .nan =>
    inParens [token (.number zero), sym .slash, token (.number zero)]
  | .infinite negative =>
    (if negative then [sym .minus] else []) ++ [ident "math", sym .dot, ident "huge"]
  | .finite negative m _ =>
    if negative && m != 0 then [sym .minus, token (.number (unsigned x))]
    else [token (.number (unsigned x))]

/-- The text of a number. -/
def numberText (x : Float) : String := render (numberPieces x)

/-- The token of a binary operator. -/
def BinaryOp.piece : BinaryOp → Piece
  | .add => sym .plus
  | .sub => sym .minus
  | .mul => sym .star
  | .div => sym .slash
  | .mod => sym .percent
  | .pow => sym .caret
  | .concat => sym .dotDot
  | .eq => sym .equalEqual
  | .ne => sym .tildeEqual
  | .lt => sym .less
  | .le => sym .lessEqual
  | .gt => sym .greater
  | .ge => sym .greaterEqual
  | .and => kw .kwAnd
  | .or => kw .kwOr

/-- The pieces of a unary operator. -/
def UnaryOp.pieces : UnaryOp → List Piece
  | .negate => [sym .minus]
  | .not => [kw .kwNot, blank]
  | .length => [sym .hash]

/-- Whether a number is written with a minus sign. -/
def isNegativeNumber (x : Float) : Bool := Decimal.Binary64.isNegative x && x != 0

/-- How strongly the outermost operator of an expression binds. -/
def Expr.strength? : Expr → Option Nat
  | .binary op _ _ => some op.leftStrength
  | .unary _ _ => some UnaryOp.strength
  | .number x => if isNegativeNumber x then some UnaryOp.strength else none
  | _ => none

/-- Whether an operand of a binary operator is written in parentheses. -/
def Expr.needsParens (parent : BinaryOp) (isLeft : Bool) (operand : Expr) : Bool :=
  match operand.strength? with
  | none => false
  | some child =>
    child < parent.leftStrength
      || (child == parent.leftStrength && isLeft == parent.groupsRight)

/-- Whether the operand of a unary operator is written in parentheses. A minus sign
    may not follow another one, because two of them start a comment. -/
def Expr.needsParensUnder (op : UnaryOp) (operand : Expr) : Bool :=
  operand.strength?.any (· < UnaryOp.strength)
    || (op == .negate &&
      match operand with
      | .unary .negate _ => true
      | .number x => Decimal.Binary64.isNegative x
      | _ => false)

/-- Whether accesses and calls can follow an expression as it is. -/
def Expr.takesSuffix : Expr → Bool
  | .name _ | .member .. | .index .. | .call .. | .methodCall .. | .paren _ => true
  | _ => false

/-- Pieces in parentheses if a condition holds. -/
def parensIf (condition : Bool) (pieces : List Piece) : List Piece :=
  if condition then inParens pieces else pieces

/-- The parameters of a function. -/
def paramPieces (params : List String) (isVararg : Bool) : List Piece :=
  names params ++
    if isVararg then (if params.isEmpty then [] else comma) ++ [sym .ellipsis] else []

/-- The target of a function declaration. -/
def targetPieces (root : String) (path : List String) (method : Option String) : List Piece :=
  ident root :: path.flatMap (fun n => [sym .dot, ident n]) ++
    match method with
    | some m => [sym .colon, ident m]
    | none => []

/-- The indentation of a function inside an expression. -/
def defaultIndent : String := "    "

/-! ## Trees -/

mutual

/-- The pieces of an expression. -/
def Expr.pieces : Expr → List Piece
  | .nil => [kw .kwNil]
  | .boolean value => [kw (if value then .kwTrue else .kwFalse)]
  | .number x => numberPieces x
  | .string literal => [token (.string literal)]
  | .vararg => [sym .ellipsis]
  | .name n => [ident n]
  | .member table key => parensIf (!table.takesSuffix) table.pieces ++ [sym .dot, ident key]
  | .index table key =>
    parensIf (!table.takesSuffix) table.pieces
      ++ sym .leftBracket :: key.pieces ++ [sym .rightBracket]
  | .call callee args =>
    parensIf (!callee.takesSuffix) callee.pieces ++ inParens (listPieces args)
  | .methodCall object method args =>
    parensIf (!object.takesSuffix) object.pieces
      ++ sym .colon :: ident method :: inParens (listPieces args)
  | .function ⟨params, isVararg, body⟩ =>
    kw .kwFunction :: inParens (paramPieces params isVararg)
      ++ space "\n" :: blockPieces defaultIndent 1 body ++ [kw .kwEnd]
  | .table fields => sym .leftBrace :: fieldsPieces fields ++ [sym .rightBrace]
  | .binary op left right =>
    parensIf (left.needsParens op true) left.pieces
      ++ blank :: op.piece :: blank :: parensIf (right.needsParens op false) right.pieces
  | .unary op operand => op.pieces ++ parensIf (operand.needsParensUnder op) operand.pieces
  | .paren inner => inParens inner.pieces

/-- Expressions with commas between them. -/
def listPieces : List Expr → List Piece
  | [] => []
  | expr :: rest => expr.pieces ++ moreListPieces rest

/-- Expressions with a comma before each. -/
def moreListPieces : List Expr → List Piece
  | [] => []
  | expr :: rest => comma ++ expr.pieces ++ moreListPieces rest

/-- The pieces of a table entry. -/
def Field.pieces : Field → List Piece
  | .positional value => value.pieces
  | .named name value => [ident name, blank, sym .equal, blank] ++ value.pieces
  | .keyed key value =>
    sym .leftBracket :: key.pieces ++ [sym .rightBracket, blank, sym .equal, blank]
      ++ value.pieces

/-- Table entries with commas between them. -/
def fieldsPieces : List Field → List Piece
  | [] => []
  | field :: rest => field.pieces ++ moreFieldsPieces rest

/-- Table entries with a comma before each. -/
def moreFieldsPieces : List Field → List Piece
  | [] => []
  | field :: rest => comma ++ field.pieces ++ moreFieldsPieces rest

/-- The lines of a statement. -/
def Stmt.pieces (indent : String) (level : Nat) : Stmt → List Piece
  | .localVars vars values =>
    line indent level
      (kw .kwLocal :: blank :: names vars ++
        if values.isEmpty then [] else [blank, sym .equal, blank] ++ listPieces values)
  | .localFunction name ⟨params, isVararg, body⟩ =>
    line indent level
        ([kw .kwLocal, blank, kw .kwFunction, blank, ident name]
          ++ inParens (paramPieces params isVararg))
      ++ blockPieces indent (level + 1) body ++ line indent level [kw .kwEnd]
  | .functionDecl root path method ⟨params, isVararg, body⟩ =>
    let written := if method.isSome then params.drop 1 else params
    line indent level
        (kw .kwFunction :: blank :: targetPieces root path method
          ++ inParens (paramPieces written isVararg))
      ++ blockPieces indent (level + 1) body ++ line indent level [kw .kwEnd]
  | .assign targets values =>
    line indent level (listPieces targets ++ [blank, sym .equal, blank] ++ listPieces values)
  | .call call => line indent level call.pieces
  | .block body =>
    line indent level [kw .kwDo]
      ++ blockPieces indent (level + 1) body ++ line indent level [kw .kwEnd]
  | .whileLoop condition body =>
    line indent level (kw .kwWhile :: blank :: condition.pieces ++ [blank, kw .kwDo])
      ++ blockPieces indent (level + 1) body ++ line indent level [kw .kwEnd]
  | .repeatLoop body condition =>
    line indent level [kw .kwRepeat]
      ++ blockPieces indent (level + 1) body
      ++ line indent level (kw .kwUntil :: blank :: condition.pieces)
  | .ifThen condition body otherwise =>
    line indent level (kw .kwIf :: blank :: condition.pieces ++ [blank, kw .kwThen])
      ++ blockPieces indent (level + 1) body ++ otherwise.pieces indent level
  | .numericFor var start limit none body =>
    line indent level
        ([kw .kwFor, blank, ident var, blank, sym .equal, blank] ++ start.pieces
          ++ comma ++ limit.pieces ++ [blank, kw .kwDo])
      ++ blockPieces indent (level + 1) body ++ line indent level [kw .kwEnd]
  | .numericFor var start limit (some step) body =>
    line indent level
        ([kw .kwFor, blank, ident var, blank, sym .equal, blank] ++ start.pieces
          ++ comma ++ limit.pieces ++ comma ++ step.pieces ++ [blank, kw .kwDo])
      ++ blockPieces indent (level + 1) body ++ line indent level [kw .kwEnd]
  | .genericFor vars exprs body =>
    line indent level
        (kw .kwFor :: blank :: names vars ++ [blank, kw .kwIn, blank] ++ listPieces exprs
          ++ [blank, kw .kwDo])
      ++ blockPieces indent (level + 1) body ++ line indent level [kw .kwEnd]
  | .ret values =>
    line indent level
      (kw .kwReturn :: if values.isEmpty then [] else blank :: listPieces values)
  | .exit => line indent level [kw .kwBreak]
  | .goto label => line indent level [kw .kwGoto, blank, ident label]
  | .label name => line indent level [sym .doubleColon, ident name, sym .doubleColon]

/-- The lines after the first block of an `if`. -/
def Else.pieces (indent : String) (level : Nat) : Else → List Piece
  | .done => line indent level [kw .kwEnd]
  | .block body =>
    line indent level [kw .kwElse]
      ++ blockPieces indent (level + 1) body ++ line indent level [kw .kwEnd]
  | .elseIf condition body otherwise =>
    line indent level (kw .kwElseIf :: blank :: condition.pieces ++ [blank, kw .kwThen])
      ++ blockPieces indent (level + 1) body ++ otherwise.pieces indent level

/-- The lines of a block. -/
def blockPieces (indent : String) (level : Nat) : List Stmt → List Piece
  | [] => []
  | stmt :: rest => stmt.pieces indent level ++ blockPieces indent level rest

end

/-- An expression as text. -/
def Expr.print (expr : Expr) : String := render expr.pieces

/-- A block as text, with a given indentation. -/
def Block.printWith (indent : String) (block : Block) : String :=
  render (blockPieces indent 0 block)

/-- A block as text. -/
def Block.print (block : Block) : String := Block.printWith defaultIndent block

end LuaUnpack.Lua
