import LuaUnpack.Lua.Lexer
import LuaUnpack.Lua.Tree

/-!
# From tokens to trees

A recursive descent over the token list. Binary operators are read by precedence
climbing: an operand is read with a limit, and the chain goes on while the next
operator binds its left side more strongly than that limit. All readers take a
bound on the depth of their calls, which `parse` computes from the number of
tokens: between two tokens that are consumed only a fixed number of readers call
each other.
-/

namespace LuaUnpack.Lua

/-- A reader of tokens. -/
abbrev Parser := StateT (List Token) (Except ParseError)

namespace Parser

/-! ## Single tokens -/

/-- The next token of a list; behind its end there is only the end token. -/
def head : List Token → Token
  | [] => ⟨.eof, 0⟩
  | token :: _ => token

/-- The next token. -/
def peek : Parser Token := do return head (← get)

/-- Goes past the next token. -/
def advance : Parser Unit := modify fun tokens => tokens.tail

/-- Fails with an error. -/
def fail {α : Type} (error : ParseError) : Parser α := fun _ => .error error

/-- Fails because the next token cannot stand here. -/
def unexpected {α : Type} : Parser α := do
  let token ← peek
  fail (.unexpectedToken token.kind.describe token.line)

/-- Fails because something else was expected instead of the next token. -/
def expectedInstead {α : Type} (what : String) : Parser α := do
  let token ← peek
  fail (.expected what token.kind.describe token.line)

/-- Goes past the next token if it is of a kind, and says whether it was. -/
def accept (kind : TokenKind) : Parser Bool := do
  if (← peek).kind = kind then
    advance
    return true
  else
    return false

/-- Goes past a token that has to be of a kind. -/
def expect (kind : TokenKind) (what : String) : Parser Unit := do
  unless ← accept kind do
    expectedInstead what

/-- Goes past a symbol. -/
def expectSymbol (sign : Symbol) : Parser Unit :=
  expect (.symbol sign) ("'" ++ sign.text ++ "'")

/-- Goes past a keyword. -/
def expectKeyword (word : Keyword) : Parser Unit :=
  expect (.keyword word) ("'" ++ word.text ++ "'")

/-- Reads a name. -/
def expectName : Parser String := do
  match (← peek).kind with
  | .name text =>
    advance
    return text
  | _ => expectedInstead "name"

/-! ## Lists of names -/

/-- The names that follow, each after a separator. -/
def namesAfter (separator : Symbol) : Nat → Parser (List String)
  | 0 => fail .nestedTooDeep
  | depth + 1 => do
    if ← accept (.symbol separator) then
      let name ← expectName
      return name :: (← namesAfter separator depth)
    else
      return []

/-- The parameters up to the closing parenthesis, and whether `...` ends them. -/
def params : Nat → Parser (List String × Bool)
  | 0 => fail .nestedTooDeep
  | depth + 1 => do
    if ← accept (.symbol .ellipsis) then
      return ([], true)
    let name ← expectName
    if ← accept (.symbol .comma) then
      let (names, isVararg) ← params depth
      return (name :: names, isVararg)
    else
      return ([name], false)

/-- The parameters between parentheses. -/
def paramList (depth : Nat) : Parser (List String × Bool) := do
  expectSymbol .leftParen
  let params ←
    if (← peek).kind = .symbol .rightParen then pure ([], false) else params depth
  expectSymbol .rightParen
  return params

/-! ## Operators -/

/-- The unary operator that a token is. -/
def unaryOp? : TokenKind → Option UnaryOp
  | .symbol .minus => some .negate
  | .keyword .kwNot => some .not
  | .symbol .hash => some .length
  | _ => none

/-- The binary operator that a token is. -/
def binaryOp? : TokenKind → Option BinaryOp
  | .symbol .plus => some .add
  | .symbol .minus => some .sub
  | .symbol .star => some .mul
  | .symbol .slash => some .div
  | .symbol .percent => some .mod
  | .symbol .caret => some .pow
  | .symbol .dotDot => some .concat
  | .symbol .equalEqual => some .eq
  | .symbol .tildeEqual => some .ne
  | .symbol .less => some .lt
  | .symbol .lessEqual => some .le
  | .symbol .greater => some .gt
  | .symbol .greaterEqual => some .ge
  | .keyword .kwAnd => some .and
  | .keyword .kwOr => some .or
  | _ => none

/-- The expression that a single token is. -/
def atom? : TokenKind → Option Expr
  | .keyword .kwNil => some .nil
  | .keyword .kwTrue => some (.boolean true)
  | .keyword .kwFalse => some (.boolean false)
  | .number value => some (.number value)
  | .string literal => some (.string literal)
  | .symbol .ellipsis => some .vararg
  | _ => none

/-- The expression between parentheses, which are kept only where they cut several
    values to one. -/
def parenthesized (inner : Expr) : Expr := if inner.isMultiple then .paren inner else inner

/-- Whether a token ends a block. -/
def endsBlock : TokenKind → Bool
  | .eof | .keyword .kwEnd | .keyword .kwElse | .keyword .kwElseIf | .keyword .kwUntil => true
  | _ => false

/-! ## Expressions and statements -/

mutual

/-- Statements up to a token that ends a block. -/
def block : Nat → Parser Block
  | 0 => fail .nestedTooDeep
  | depth + 1 => do
    let kind := (← peek).kind
    if endsBlock kind then return []
    else if kind = .symbol .semicolon then
      advance
      block depth
    else if kind = .keyword .kwReturn then
      advance
      return [← returnValues depth]
    else
      let stmt ← statement depth
      return stmt :: (← block depth)

/-- A statement other than `return`. -/
def statement : Nat → Parser Stmt
  | 0 => fail .nestedTooDeep
  | depth + 1 => do
    match (← peek).kind with
    | .keyword .kwLocal => do advance; localStatement depth
    | .keyword .kwFunction => do advance; functionStatement depth
    | .keyword .kwIf => do
      advance
      let (condition, body) ← clause depth
      return .ifThen condition body (← elsePart depth)
    | .keyword .kwWhile => do
      advance
      let condition ← expression depth
      expectKeyword .kwDo
      let body ← block depth
      expectKeyword .kwEnd
      return .whileLoop condition body
    | .keyword .kwFor => do advance; forStatement depth
    | .keyword .kwRepeat => do
      advance
      let body ← block depth
      expectKeyword .kwUntil
      return .repeatLoop body (← expression depth)
    | .keyword .kwDo => do
      advance
      let body ← block depth
      expectKeyword .kwEnd
      return .block body
    | .keyword .kwBreak => do
      advance
      return .exit
    | .keyword .kwGoto => do
      advance
      return .goto (← expectName)
    | .symbol .doubleColon => do
      advance
      let name ← expectName
      expectSymbol .doubleColon
      return .label name
    | _ => expressionStatement depth

/-- A declaration after `local`. -/
def localStatement : Nat → Parser Stmt
  | 0 => fail .nestedTooDeep
  | depth + 1 => do
    if ← accept (.keyword .kwFunction) then
      let name ← expectName
      return .localFunction name (← funcBody depth)
    let first ← expectName
    let names := first :: (← namesAfter .comma depth)
    if ← accept (.symbol .equal) then
      return .localVars names (← expressionList depth)
    else
      return .localVars names []

/-- A function declaration after `function`. -/
def functionStatement : Nat → Parser Stmt
  | 0 => fail .nestedTooDeep
  | depth + 1 => do
    let root ← expectName
    let path ← namesAfter .dot depth
    if ← accept (.symbol .colon) then
      let method ← expectName
      let function ← funcBody depth
      return .functionDecl root path (some method)
        ⟨"self" :: function.params, function.isVararg, function.body⟩
    else
      return .functionDecl root path none (← funcBody depth)

/-- Parameters and block of a function. -/
def funcBody : Nat → Parser FuncBody
  | 0 => fail .nestedTooDeep
  | depth + 1 => do
    let (params, isVararg) ← paramList depth
    let body ← block depth
    expectKeyword .kwEnd
    return ⟨params, isVararg, body⟩

/-- A condition and the block that it guards. -/
def clause : Nat → Parser (Expr × Block)
  | 0 => fail .nestedTooDeep
  | depth + 1 => do
    let condition ← expression depth
    expectKeyword .kwThen
    return (condition, ← block depth)

/-- What follows a guarded block. -/
def elsePart : Nat → Parser Else
  | 0 => fail .nestedTooDeep
  | depth + 1 => do
    if ← accept (.keyword .kwElseIf) then
      let (condition, body) ← clause depth
      return .elseIf condition body (← elsePart depth)
    else if ← accept (.keyword .kwElse) then
      let body ← block depth
      expectKeyword .kwEnd
      return .block body
    else
      expectKeyword .kwEnd
      return .done

/-- A loop after `for`. -/
def forStatement : Nat → Parser Stmt
  | 0 => fail .nestedTooDeep
  | depth + 1 => do
    let first ← expectName
    if ← accept (.symbol .equal) then
      let start ← expression depth
      expectSymbol .comma
      let limit ← expression depth
      let step ← if ← accept (.symbol .comma) then some <$> expression depth else pure none
      expectKeyword .kwDo
      let body ← block depth
      expectKeyword .kwEnd
      return .numericFor first start limit step body
    else
      let names := first :: (← namesAfter .comma depth)
      expectKeyword .kwIn
      let exprs ← expressionList depth
      expectKeyword .kwDo
      let body ← block depth
      expectKeyword .kwEnd
      return .genericFor names exprs body

/-- The values after `return`, with the semicolon that may follow. -/
def returnValues : Nat → Parser Stmt
  | 0 => fail .nestedTooDeep
  | depth + 1 => do
    let kind := (← peek).kind
    let values ←
      if endsBlock kind || kind = .symbol .semicolon then pure [] else expressionList depth
    let _ ← accept (.symbol .semicolon)
    return .ret values

/-- An assignment or a call. -/
def expressionStatement : Nat → Parser Stmt
  | 0 => fail .nestedTooDeep
  | depth + 1 => do
    let line := (← peek).line
    let first ← suffixed depth
    let kind := (← peek).kind
    if kind = .symbol .equal || kind = .symbol .comma then
      let targets := first :: (← moreTargets depth)
      expectSymbol .equal
      let values ← expressionList depth
      if targets.all Expr.isAssignable then
        return .assign targets values
      else
        fail (.unexpectedToken "non-assignable target" line)
    else if first.isCall then
      return .call first
    else
      fail (.expected "function call or assignment" kind.describe line)

/-- The targets that follow, each after a comma. -/
def moreTargets : Nat → Parser (List Expr)
  | 0 => fail .nestedTooDeep
  | depth + 1 => do
    if ← accept (.symbol .comma) then
      let target ← suffixed depth
      return target :: (← moreTargets depth)
    else
      return []

/-- Expressions with commas between them. -/
def expressionList : Nat → Parser (List Expr)
  | 0 => fail .nestedTooDeep
  | depth + 1 => do
    let expr ← expression depth
    if ← accept (.symbol .comma) then
      return expr :: (← expressionList depth)
    else
      return [expr]

/-- An expression. -/
def expression : Nat → Parser Expr
  | 0 => fail .nestedTooDeep
  | depth + 1 => operand depth 0

/-- An expression whose operators bind more strongly than `limit`. -/
def operand : Nat → Nat → Parser Expr
  | 0, _ => fail .nestedTooDeep
  | depth + 1, limit => do
    match unaryOp? (← peek).kind with
    | some op =>
      advance
      let inner ← operand depth UnaryOp.strength
      chain depth limit (.unary op inner)
    | none =>
      let left ← simple depth
      chain depth limit left

/-- The operators and operands that follow `left`. -/
def chain : Nat → Nat → Expr → Parser Expr
  | 0, _, _ => fail .nestedTooDeep
  | depth + 1, limit, left => do
    match binaryOp? (← peek).kind with
    | some op =>
      if op.leftStrength ≤ limit then
        return left
      else
        advance
        let right ← operand depth op.rightStrength
        chain depth limit (.binary op left right)
    | none => return left

/-- An expression without operators. -/
def simple : Nat → Parser Expr
  | 0 => fail .nestedTooDeep
  | depth + 1 => do
    let kind := (← peek).kind
    match atom? kind with
    | some expr =>
      advance
      return expr
    | none =>
      if kind = .symbol .leftBrace then
        table depth
      else if kind = .keyword .kwFunction then
        advance
        return .function (← funcBody depth)
      else
        suffixed depth

/-- A name or an expression in parentheses. -/
def primary : Nat → Parser Expr
  | 0 => fail .nestedTooDeep
  | depth + 1 => do
    match (← peek).kind with
    | .name text => do
      advance
      return .name text
    | .symbol .leftParen => do
      advance
      let inner ← expression depth
      expectSymbol .rightParen
      return parenthesized inner
    | _ => unexpected

/-- A primary expression with the accesses and calls after it. -/
def suffixed : Nat → Parser Expr
  | 0 => fail .nestedTooDeep
  | depth + 1 => do
    let expr ← primary depth
    suffixes depth expr

/-- The accesses and calls that follow `expr`. -/
def suffixes : Nat → Expr → Parser Expr
  | 0, _ => fail .nestedTooDeep
  | depth + 1, expr => do
    match (← peek).kind with
    | .symbol .dot => do
      advance
      let key ← expectName
      suffixes depth (.member expr key)
    | .symbol .leftBracket => do
      advance
      let key ← expression depth
      expectSymbol .rightBracket
      suffixes depth (.index expr key)
    | .symbol .colon => do
      advance
      let method ← expectName
      let args ← arguments depth
      suffixes depth (.methodCall expr method args)
    | .symbol .leftParen | .symbol .leftBrace | .string _ => do
      let args ← arguments depth
      suffixes depth (.call expr args)
    | _ => return expr

/-- The arguments of a call: a string, a table, or a list in parentheses. -/
def arguments : Nat → Parser (List Expr)
  | 0 => fail .nestedTooDeep
  | depth + 1 => do
    match (← peek).kind with
    | .string literal => do
      advance
      return [.string literal]
    | .symbol .leftBrace => do
      return [← table depth]
    | .symbol .leftParen => do
      advance
      if ← accept (.symbol .rightParen) then
        return []
      let args ← expressionList depth
      expectSymbol .rightParen
      return args
    | _ => unexpected

/-- A table constructor. -/
def table : Nat → Parser Expr
  | 0 => fail .nestedTooDeep
  | depth + 1 => do
    expectSymbol .leftBrace
    let fields ← fields depth
    expectSymbol .rightBrace
    return .table fields

/-- The entries of a table up to its closing brace. -/
def fields : Nat → Parser (List Field)
  | 0 => fail .nestedTooDeep
  | depth + 1 => do
    if (← peek).kind = .symbol .rightBrace then
      return []
    let entry ← field depth
    if (← accept (.symbol .comma)) then
      return entry :: (← fields depth)
    else if (← accept (.symbol .semicolon)) then
      return entry :: (← fields depth)
    else
      return [entry]

/-- An entry of a table. -/
def field : Nat → Parser Field
  | 0 => fail .nestedTooDeep
  | depth + 1 => do
    let tokens ← get
    match (head tokens).kind, (head tokens.tail).kind with
    | .symbol .leftBracket, _ => do
      advance
      let key ← expression depth
      expectSymbol .rightBracket
      expectSymbol .equal
      return .keyed key (← expression depth)
    | .name text, .symbol .equal => do
      advance
      advance
      return .named text (← expression depth)
    | _, _ => return .positional (← expression depth)

end

/-- A bound on the depth of the readers for a number of tokens. -/
def depthFor (tokens : List Token) : Nat := 16 * (tokens.length + 1)

/-- Reads with a reader that has to take all tokens. -/
def whole {α : Type} (reader : Nat → Parser α) (tokens : List Token) : Except ParseError α := do
  let (value, rest) ← (reader (depthFor tokens)).run tokens
  match head rest with
  | ⟨.eof, _⟩ => return value
  | token => throw (.unexpectedToken token.kind.describe token.line)

end Parser

/-- Reads a script. -/
def parse (source : String) : Except ParseError Block := do
  Parser.whole Parser.block (← tokenize source)

/-- Reads a text that is one expression. -/
def parseExpr (source : String) : Except ParseError Expr := do
  Parser.whole Parser.expression (← tokenize source)

end LuaUnpack.Lua
