import LuaUnpack.Lua.Tree
import Mathlib.Data.Nat.Find

/-!
# A script from its beginning to its end

What is met when a script is read from one end to the other: statements begin, scopes are
entered and left, names are declared and used. Parts come from left to right, but for two
cases: the values of an assignment come before its targets, and the names of a local
declaration after its values, in which they are not in sight.

Lexical scoping can be said on this list without looking at the tree again. A declaration
is in sight until the scope in which it stands is left, and a use refers to the last one of
its name that is in sight there (`Mark.Refers`), or to none (`Mark.IsGlobal`).
-/

namespace LuaUnpack.Lua

/-- What is met at one place of a script. -/
inductive Mark where
  | statement (kind : String)
  | enter
  | leave
  | declare (name : String)
  | use (name : String)
deriving DecidableEq, Repr

namespace Mark

/-- Whether a name is declared. -/
def isDeclaration : Mark → Bool
  | declare _ => true
  | _ => false

/-- Whether a statement begins. -/
def isStatement : Mark → Bool
  | statement _ => true
  | _ => false

/-- What stands in a scope of its own. -/
def enclosed (marks : List Mark) : List Mark := enter :: marks ++ [leave]

mutual

/-- The marks of an expression; a function has its parameters in the scope of its block. -/
def ofExpr : Expr → List Mark
  | .nil | .boolean _ | .number _ | .string _ | .vararg => []
  | .name n => [use n]
  | .member t _ => ofExpr t
  | .index t k => ofExpr t ++ ofExpr k
  | .call f args => ofExpr f ++ ofExprs args
  | .methodCall o _ args => ofExpr o ++ ofExprs args
  | .function ⟨ps, _, b⟩ => enclosed (ps.map declare ++ ofStmts b)
  | .table fields => ofFields fields
  | .binary _ l r => ofExpr l ++ ofExpr r
  | .unary _ e => ofExpr e
  | .paren e => ofExpr e

/-- The marks of expressions. -/
def ofExprs : List Expr → List Mark
  | [] => []
  | e :: rest => ofExpr e ++ ofExprs rest

/-- The marks of a table entry. -/
def ofField : Field → List Mark
  | .positional e => ofExpr e
  | .named _ e => ofExpr e
  | .keyed k e => ofExpr k ++ ofExpr e

/-- The marks of table entries. -/
def ofFields : List Field → List Mark
  | [] => []
  | f :: rest => ofField f ++ ofFields rest

/-- The marks of the parts of a statement. A local function is in sight in its own block,
    and the locals of a `repeat` are in its condition. -/
def ofStmt : Stmt → List Mark
  | .localVars ns vs => ofExprs vs ++ ns.map declare
  | .localFunction n ⟨ps, _, b⟩ => declare n :: enclosed (ps.map declare ++ ofStmts b)
  | .functionDecl r _ _ ⟨ps, _, b⟩ => use r :: enclosed (ps.map declare ++ ofStmts b)
  | .assign ts vs => ofExprs vs ++ ofExprs ts
  | .call e => ofExpr e
  | .block b => enclosed (ofStmts b)
  | .whileLoop c b => ofExpr c ++ enclosed (ofStmts b)
  | .repeatLoop b c => enclosed (ofStmts b ++ ofExpr c)
  | .ifThen c b o => ofExpr c ++ enclosed (ofStmts b) ++ ofElse o
  | .numericFor n s l none b =>
    ofExpr s ++ ofExpr l ++ enclosed (declare n :: ofStmts b)
  | .numericFor n s l (some t) b =>
    ofExpr s ++ ofExpr l ++ ofExpr t ++ enclosed (declare n :: ofStmts b)
  | .genericFor ns es b => ofExprs es ++ enclosed (ns.map declare ++ ofStmts b)
  | .ret vs => ofExprs vs
  | .exit | .goto _ | .label _ => []

/-- The marks after the first block of an `if`. -/
def ofElse : Else → List Mark
  | .done => []
  | .block b => enclosed (ofStmts b)
  | .elseIf c b o => ofExpr c ++ enclosed (ofStmts b) ++ ofElse o

/-- The marks of statements. -/
def ofStmts : List Stmt → List Mark
  | [] => []
  | s :: rest => statement s.kindName :: ofStmt s ++ ofStmts rest

end

/-! ## Scopes -/

/-- The depth of scopes after a mark, counted from a scope that must not be left. -/
def deepen (depth : Option Nat) : Mark → Option Nat
  | enter => depth.map (· + 1)
  | leave => depth.bind fun
    | 0 => none
    | d + 1 => some d
  | _ => depth

/-- How many scopes deeper than its start a part of a script ends, if it does not leave
    the scope in which it starts. -/
def depth? (marks : List Mark) : Option Nat := marks.foldl deepen (some 0)

/-- Whether a declaration at the place `p` is in sight at the place `q`. -/
def InSight (marks : List Mark) (p q : Nat) : Prop :=
  p < q ∧ (depth? ((marks.take q).drop (p + 1))).isSome

instance (marks : List Mark) (p q : Nat) : Decidable (InSight marks p q) :=
  inferInstanceAs (Decidable (_ ∧ _))

/-- Whether the use of a name at `q` refers to its declaration at `p`, which is the last
    one in sight. -/
structure Refers (marks : List Mark) (name : String) (p q : Nat) : Prop where
  declared : marks[p]? = some (declare name)
  used : marks[q]? = some (use name)
  inSight : InSight marks p q
  last : ∀ r, p < r → marks[r]? = some (declare name) → ¬ InSight marks r q

/-- Whether a name is used at `q` without a declaration in sight. -/
structure IsGlobal (marks : List Mark) (name : String) (q : Nat) : Prop where
  used : marks[q]? = some (use name)
  undeclared : ∀ p, marks[p]? = some (declare name) → ¬ InSight marks p q

section

variable {marks : List Mark} {name : String} {p q r : Nat}

theorem Refers.unique (hp : Refers marks name p q) (hr : Refers marks name r q) : p = r := by
  rcases Nat.lt_trichotomy p r with h | h | h
  · exact absurd hr.inSight (hp.last r h hr.declared)
  · exact h
  · exact absurd hp.inSight (hr.last p h hp.declared)

/-- Every use refers to a declaration or is global. -/
theorem refers_or_isGlobal (h : marks[q]? = some (use name)) :
    (∃ p, Refers marks name p q) ∨ IsGlobal marks name q := by
  by_cases hex : ∃ p, marks[p]? = some (declare name) ∧ InSight marks p q
  · obtain ⟨p, hp⟩ := hex
    obtain ⟨hdeclared, hsight⟩ := Nat.findGreatest_spec
      (P := fun p => marks[p]? = some (declare name) ∧ InSight marks p q) (Nat.le_of_lt hp.2.1) hp
    refine .inl ⟨_, hdeclared, h, hsight, fun r hr hdeclared hsight => ?_⟩
    exact Nat.findGreatest_is_greatest hr (Nat.le_of_lt hsight.1) ⟨hdeclared, hsight⟩
  · exact .inr ⟨h, fun p hdeclared hsight => hex ⟨p, hdeclared, hsight⟩⟩

end

/-- How many declarations stand before a place. -/
def ordinal (marks : List Mark) (p : Nat) : Nat := (marks.take p).countP isDeclaration

end Mark

/-- The marks of a block. -/
def Block.marks (block : Block) : List Mark := Mark.ofStmts block

end LuaUnpack.Lua
