import LuaUnpack.Proofs.Decimal.Numeral
import LuaUnpack.Proofs.Lua.Printable
import LuaUnpack.Proofs.Script.Nameless

/-!
# The text of a renamed script

Renaming changes the names of a script, and these can be seen in its text: the pieces of the text
are the same up to names (`unnamed_blockPieces`), the new names are identifiers again
(`isIdentifier_of_mem_names`), and nothing that decides how a text is read looks into a name. So a
script that is read back from its text is still read back after renaming, but for one case
(`parse_print_rename_iff`): a method is written without its first parameter, which is read as
`self` again, while renaming gave it a new name.
-/

namespace LuaUnpack.Script

open LuaUnpack.Lua LuaUnpack.Lua.Piece

namespace Rename

/-! ## Pieces without names -/

/-- A piece with some name in the place of every name. -/
def unnamed : Piece → Piece
  | .token (.name _) => ident "_"
  | piece => piece

/-- Whether pieces are the same up to names. -/
def Alike (left right : List Piece) : Prop := left.map unnamed = right.map unnamed

section

variable {left right left' right' pieces pieces' : List Piece}

theorem alike_refl (pieces : List Piece) : Alike pieces pieces := rfl

theorem Alike.append (h : Alike left left') (h' : Alike right right') :
    Alike (left ++ right) (left' ++ right') := by
  rw [Alike, List.map_append, List.map_append, h, h']

theorem Alike.cons (h : Alike pieces pieces') (piece : Piece) :
    Alike (piece :: pieces) (piece :: pieces') :=
  (alike_refl [piece]).append h

theorem Alike.ident (h : Alike pieces pieces') (n n' : String) :
    Alike (ident n :: pieces) (ident n' :: pieces') :=
  (show Alike [Piece.ident n] [Piece.ident n'] from rfl).append h

theorem Alike.concat (h : Alike pieces pieces') (more : List Piece) :
    Alike (pieces ++ more) (pieces' ++ more) :=
  h.append (alike_refl more)

theorem Alike.before (h : Alike pieces pieces') (more : List Piece) :
    Alike (more ++ pieces) (more ++ pieces') :=
  (alike_refl more).append h

theorem Alike.inParens (h : Alike pieces pieces') : Alike (inParens pieces) (inParens pieces') :=
  (h.cons _).concat _

theorem Alike.parensIf (h : Alike pieces pieces') {c c' : Bool} (hc : c' = c) :
    Alike (parensIf c' pieces) (parensIf c pieces') := by
  subst hc
  cases c' with
  | false => exact h
  | true => exact h.inParens

theorem Alike.line (h : Alike pieces pieces') (indent : String) (level : Nat) :
    Alike (line indent level pieces) (line indent level pieces') :=
  (h.cons _).concat _

theorem Alike.symm (h : Alike pieces pieces') : Alike pieces' pieces := Eq.symm h

end

theorem alike_names : (ns : List String) → Alike (Piece.names (noNames ns)) (Piece.names ns)
  | [] => alike_refl []
  | [n] => (alike_refl []).ident "" n
  | n :: m :: ns => ((alike_refl comma).ident "" n).append (alike_names (m :: ns))

theorem alike_paramPieces (params : List String) (isVararg : Bool) :
    Alike (paramPieces (noNames params) isVararg) (paramPieces params isVararg) := by
  refine (alike_names params).append ?_
  rw [noNames, List.isEmpty_map]
  exact alike_refl _

theorem alike_targetPieces (root : String) (path : List String) (method : Option String) :
    Alike (targetPieces "" path method) (targetPieces root path method) :=
  ((alike_refl _).ident "" root).concat _

theorem noNames_written (method : Option String) (params : List String) :
    (if method.isSome then (noNames params).drop 1 else noNames params) =
      noNames (if method.isSome then params.drop 1 else params) := by
  split
  · exact List.map_drop.symm
  · rfl

theorem isEmpty_nameless (es : List Expr) :
    (nameless.onExprs es : List Expr).isEmpty = es.isEmpty := by
  cases es <;> rfl

mutual

theorem alike_expr : (e : Expr) → Alike (nameless.onExpr e).pieces e.pieces
  | .nil | .boolean _ | .number _ | .string _ | .vararg => alike_refl _
  | .name n => (alike_refl []).ident "" n
  | .member t _ =>
    ((alike_expr t).parensIf (congrArg not (takesSuffix_nameless t))).concat _
  | .index t k =>
    (((alike_expr t).parensIf (congrArg not (takesSuffix_nameless t))).append
      ((alike_expr k).cons _)).concat _
  | .call t args =>
    ((alike_expr t).parensIf (congrArg not (takesSuffix_nameless t))).append
      (alike_list args).inParens
  | .methodCall t m args =>
    ((alike_expr t).parensIf (congrArg not (takesSuffix_nameless t))).append
      (((alike_list args).inParens.ident m m).cons _)
  | .function ⟨ps, v, b⟩ =>
    (((alike_paramPieces ps v).inParens.append ((alike_block defaultIndent 1 b).cons _)).cons
      _).concat _
  | .table fields => ((alike_fields fields).cons _).concat _
  | .binary op l r =>
    ((alike_expr l).parensIf (needsParens_nameless op true l)).append
      (((((alike_expr r).parensIf (needsParens_nameless op false r)).cons _).cons _).cons _)
  | .unary op e => ((alike_expr e).parensIf (needsParensUnder_nameless op e)).before _
  | .paren e => (alike_expr e).inParens

theorem alike_list : (es : List Expr) → Alike (listPieces (nameless.onExprs es)) (listPieces es)
  | [] => alike_refl _
  | e :: es => (alike_expr e).append (alike_moreList es)

theorem alike_moreList : (es : List Expr) →
    Alike (moreListPieces (nameless.onExprs es)) (moreListPieces es)
  | [] => alike_refl _
  | e :: es => ((alike_expr e).before _).append (alike_moreList es)

theorem alike_field : (f : Field) → Alike (nameless.onField f).pieces f.pieces
  | .positional e => alike_expr e
  | .named n e => (alike_expr e).before [ident n, blank, sym .equal, blank]
  | .keyed k e => (((alike_expr k).cons _).concat _).append (alike_expr e)

theorem alike_fields : (fs : List Field) →
    Alike (fieldsPieces (nameless.onFields fs)) (fieldsPieces fs)
  | [] => alike_refl _
  | f :: fs => (alike_field f).append (alike_moreFields fs)

theorem alike_moreFields : (fs : List Field) →
    Alike (moreFieldsPieces (nameless.onFields fs)) (moreFieldsPieces fs)
  | [] => alike_refl _
  | f :: fs => ((alike_field f).before _).append (alike_moreFields fs)

theorem alike_stmt (indent : String) (level : Nat) : (s : Stmt) →
    Alike ((nameless.onStmt s).pieces indent level) (s.pieces indent level)
  | .localVars ns es => by
    refine (Alike.cons (Alike.cons ((alike_names ns).append ?_) _) _).line indent level
    -- Whether values are written does not depend on their names.
    rw [isEmpty_nameless]
    split
    · exact alike_refl _
    · exact (alike_list es).before _
  | .localFunction n ⟨ps, v, b⟩ =>
    ((((((((alike_refl []).ident "" n).cons _).cons _).cons _).cons _).append
      (alike_paramPieces ps v).inParens).line indent level).append
        (alike_block indent (level + 1) b) |>.concat _
  | .functionDecl root path method ⟨ps, v, b⟩ => by
    have hparams := alike_paramPieces (if method.isSome then ps.drop 1 else ps) v
    rw [← noNames_written] at hparams
    exact (((((alike_targetPieces root path method).cons _).cons _).append
      hparams.inParens).line indent level).append (alike_block indent (level + 1) b) |>.concat _
  | .assign ts vs =>
    (((alike_list ts).concat _).append (alike_list vs)).line indent level
  | .call e => (alike_expr e).line indent level
  | .block b => ((alike_block indent (level + 1) b).before _).concat _
  | .whileLoop c b =>
    ((((((alike_expr c).cons _).cons _).concat _).line indent level).append
      (alike_block indent (level + 1) b)).concat _
  | .repeatLoop b c =>
    ((alike_block indent (level + 1) b).before _).append
      ((((alike_expr c).cons _).cons _).line indent level)
  | .ifThen c b o =>
    ((((((alike_expr c).cons _).cons _).concat _).line indent level).append
      (alike_block indent (level + 1) b)).append (alike_else indent level o)
  | .numericFor n s l none b =>
    ((((((((((alike_refl _).ident "" n).cons _).cons _).append (alike_expr s)).concat _).append
      (alike_expr l)).concat _).line indent level).append
        (alike_block indent (level + 1) b)).concat _
  | .numericFor n s l (some t) b =>
    ((((((((((((alike_refl _).ident "" n).cons _).cons _).append (alike_expr s)).concat _).append
      (alike_expr l)).concat _).append (alike_expr t)).concat _).line indent level).append
        (alike_block indent (level + 1) b)).concat _
  | .genericFor ns es b =>
    ((((((((alike_names ns).cons _).cons _).concat _).append (alike_list es)).concat _).line
      indent level).append (alike_block indent (level + 1) b)).concat _
  | .ret es => by
    refine (Alike.cons ?_ _).line indent level
    rw [isEmpty_nameless]
    split
    · exact alike_refl _
    · exact (alike_list es).cons _
  | .exit | .goto _ | .label _ => alike_refl _

theorem alike_else (indent : String) (level : Nat) : (o : Else) →
    Alike ((nameless.onElse o).pieces indent level) (o.pieces indent level)
  | .done => alike_refl _
  | .block b => ((alike_block indent (level + 1) b).before _).concat _
  | .elseIf c b o =>
    ((((((alike_expr c).cons _).cons _).concat _).line indent level).append
      (alike_block indent (level + 1) b)).append (alike_else indent level o)

theorem alike_block (indent : String) (level : Nat) : (b : List Stmt) →
    Alike (blockPieces indent level (nameless.onStmts b)) (blockPieces indent level b)
  | [] => alike_refl _
  | s :: b => (alike_stmt indent level s).append (alike_block indent level b)

end

theorem alike_of_nameless {b b' : Block} (h : nameless.onStmts b' = nameless.onStmts b)
    (indent : String) (level : Nat) :
    Alike (blockPieces indent level b) (blockPieces indent level b') := by
  have hb := alike_block indent level b
  rw [← h] at hb
  exact hb.symm.trans (alike_block indent level b')

/-! ### What is kept -/

theorem lead_ident_ne_bracket (next : Option Char) (rest : List Piece) {name : String}
    (hname : isIdentifier name = true) : lead next (ident name :: rest) ≠ some '[' := by
  obtain ⟨c, hc, hstart⟩ := lead_ident next rest hname
  rw [hc]
  exact fun h => isNameStart_ne hstart rfl (Option.some.inj h)

theorem lead_unnamed {next : Option Char} {pieces : List Piece} (h : Fits True next pieces) :
    lead next (pieces.map unnamed) = some '[' ↔ lead next pieces = some '[' := by
  induction pieces with
  | nil => exact Iff.rfl
  | cons piece pieces ih =>
    have hsame (heq : unnamed piece = piece) (hrest : Fits True next pieces) :
        lead next ((piece :: pieces).map unnamed) = some '[' ↔
          lead next (piece :: pieces) = some '[' := by
      rw [List.map_cons, heq, lead, lead]
      cases piece.text.toList.head? with
      | none => exact ih hrest
      | some c => exact Iff.rfl
    -- An identifier begins with no bracket, whichever it is; other pieces stay as they are.
    cases piece with
    | space text => exact hsame rfl h.2
    | token kind =>
      cases kind with
      | name n =>
        exact iff_of_false (lead_ident_ne_bracket next _ (by decide : isIdentifier "_" = true))
          (lead_ident_ne_bracket next pieces h.1)
      | _ => exact hsame rfl h.2.2

theorem keeps_unnamed {next : Option Char} {pieces : List Piece} (h : Fits True next pieces) :
    Keeps next (pieces.map unnamed) ↔ Keeps next pieces := by
  induction pieces with
  | nil => exact Iff.rfl
  | cons piece pieces ih =>
    cases piece with
    | space text => exact ih h.2
    | token kind =>
      cases kind with
      | symbol sign =>
        refine and_congr ?_ (ih h.2.2)
        cases sign with
        | leftBracket => exact not_congr (lead_unnamed h.2.2)
        | _ => exact Iff.rfl
      | _ => exact and_congr Iff.rfl (ih h.2.2)

theorem Alike.keeps {next : Option Char} {pieces pieces' : List Piece} (h : Alike pieces pieces')
    (hfits : Fits True next pieces) (hfits' : Fits True next pieces') (hkeeps : Keeps next pieces) :
    Keeps next pieces' := by
  rw [← keeps_unnamed hfits', ← h, keeps_unnamed hfits]
  exact hkeeps

/-! ## Names in nodes and marks -/

/-- Whether a mark has a name. -/
def isNaming : Mark → Bool
  | .declare _ | .use _ => true
  | _ => false

/-- The marks of the names of a node itself. -/
def ownMarks : Node → List Mark
  | .expr (.name n) => [.use n]
  | .expr (.function f) => f.params.map .declare
  | .stmt (.localVars names _) | .stmt (.genericFor names _ _) => names.map .declare
  | .stmt (.localFunction n f) => (n :: f.params).map .declare
  | .stmt (.functionDecl root _ _ f) => .use root :: f.params.map .declare
  | .stmt (.numericFor n _ _ _ _) => [.declare n]
  | _ => []

/-- Whether marks hold the names of nodes. -/
def Names (marks : List Mark) (nodes : List Node) : Prop :=
  ∀ mark, isNaming mark = true → (mark ∈ marks ↔ ∃ node ∈ nodes, mark ∈ ownMarks node)

section

variable {marks marks' : List Mark} {nodes nodes' : List Node}

theorem names_nil : Names [] [] := fun _ _ => by simp

theorem Names.append (h : Names marks nodes) (h' : Names marks' nodes') :
    Names (marks ++ marks') (nodes ++ nodes') := by
  intro mark hmark
  simp only [List.mem_append, h mark hmark, h' mark hmark, or_and_right, exists_or]

theorem Names.swap (h : Names marks nodes) (h' : Names marks' nodes') :
    Names (marks' ++ marks) (nodes ++ nodes') := by
  intro mark hmark
  rw [List.mem_append, Or.comm, ← List.mem_append]
  exact h.append h' mark hmark

/-- A mark that has no name does not matter. -/
theorem Names.insert (left right : List Mark) {mark : Mark} (h : Names (left ++ right) nodes)
    (hmark : isNaming mark = false) : Names (left ++ mark :: right) nodes := by
  intro other hother
  have hne : other ≠ mark := by
    rintro rfl
    exact Bool.noConfusion (hother.symm.trans hmark)
  rw [← h other hother]
  simp only [List.mem_append, List.mem_cons, hne, false_or]

theorem Names.statement (h : Names marks nodes) (kind : String) :
    Names (.statement kind :: marks) nodes :=
  h.insert [] marks rfl

theorem Names.enclosed (h : Names marks nodes) : Names (Mark.enclosed marks) nodes := by
  have hleave : Names (marks ++ [Mark.leave]) nodes :=
    Names.insert marks [] (by rwa [List.append_nil]) rfl
  exact hleave.insert [] _ rfl

theorem Names.enclosedAfter {mark : Mark} (h : Names (mark :: marks) nodes) :
    Names (mark :: Mark.enclosed marks) nodes := by
  have hleave : Names (mark :: marks ++ [Mark.leave]) nodes :=
    Names.insert (mark :: marks) [] (by rwa [List.append_nil]) rfl
  exact hleave.insert [mark] _ rfl

/-- A node without names of its own. -/
theorem Names.pass {node : Node} (h : Names marks nodes) (hown : ownMarks node = []) :
    Names marks (node :: nodes) := by
  intro mark hmark
  rw [h mark hmark, List.exists_mem_cons_iff, hown]
  simp

/-- The names of a node may come before those of the nodes below it. -/
theorem Names.under (h : Names marks nodes) (node : Node) :
    Names (ownMarks node ++ marks) (node :: nodes) := by
  intro mark hmark
  rw [List.mem_append, h mark hmark, List.exists_mem_cons_iff]

/-- The names of a node may come after those of the nodes below it. -/
theorem Names.over (h : Names marks nodes) (node : Node) :
    Names (marks ++ ownMarks node) (node :: nodes) := by
  intro mark hmark
  rw [List.mem_append, Or.comm, ← List.mem_append]
  exact h.under node mark hmark

/-- The names of a node may come between those of the nodes below it. -/
theorem Names.between (h : Names marks nodes) (h' : Names marks' nodes') (node : Node) :
    Names (marks ++ Mark.enclosed (ownMarks node ++ marks')) (node :: (nodes ++ nodes')) := by
  intro mark hmark
  rw [List.mem_append, (h'.under node).enclosed mark hmark, h mark hmark]
  simp only [List.exists_mem_cons_iff, List.mem_append, or_and_right, exists_or]
  exact or_left_comm

end

mutual

theorem names_ofExpr : (e : Expr) → Names (Mark.ofExpr e) (Node.ofExpr (fun _ => true) e)
  | .nil | .boolean _ | .number _ | .string _ | .vararg => names_nil.pass rfl
  | .name n => names_nil.under (.expr (.name n))
  | .member t _ | .unary _ t | .paren t => (names_ofExpr t).pass rfl
  | .index t k | .binary _ t k => ((names_ofExpr t).append (names_ofExpr k)).pass rfl
  | .call t args | .methodCall t _ args => ((names_ofExpr t).append (names_ofExprs args)).pass rfl
  | .function ⟨ps, v, b⟩ => ((names_ofStmts b).under (.expr (.function ⟨ps, v, b⟩))).enclosed
  | .table fields => (names_ofFields fields).pass rfl

theorem names_ofExprs : (es : List Expr) →
    Names (Mark.ofExprs es) (Node.ofExprs (fun _ => true) es)
  | [] => names_nil
  | e :: es => (names_ofExpr e).append (names_ofExprs es)

theorem names_ofField : (f : Field) → Names (Mark.ofField f) (Node.ofField (fun _ => true) f)
  | .positional e | .named _ e => names_ofExpr e
  | .keyed k e => (names_ofExpr k).append (names_ofExpr e)

theorem names_ofFields : (fs : List Field) →
    Names (Mark.ofFields fs) (Node.ofFields (fun _ => true) fs)
  | [] => names_nil
  | f :: fs => (names_ofField f).append (names_ofFields fs)

theorem names_ofStmt : (s : Stmt) → Names (Mark.ofStmt s) (Node.ofStmt (fun _ => true) s)
  | .localVars ns es => (names_ofExprs es).over (.stmt (.localVars ns es))
  | .localFunction n ⟨ps, v, b⟩ =>
    ((names_ofStmts b).under (.stmt (.localFunction n ⟨ps, v, b⟩))).enclosedAfter
  | .functionDecl r p m ⟨ps, v, b⟩ =>
    ((names_ofStmts b).under (.stmt (.functionDecl r p m ⟨ps, v, b⟩))).enclosedAfter
  -- The marks of the values come first, the nodes of the targets do.
  | .assign ts vs => ((names_ofExprs ts).swap (names_ofExprs vs)).pass rfl
  | .call e => (names_ofExpr e).pass rfl
  | .block b => (names_ofStmts b).enclosed.pass rfl
  | .whileLoop c b => ((names_ofExpr c).append (names_ofStmts b).enclosed).pass rfl
  | .repeatLoop b c => ((names_ofStmts b).append (names_ofExpr c)).enclosed.pass rfl
  | .ifThen c b o =>
    (((names_ofExpr c).append (names_ofStmts b).enclosed).append (names_ofElse o)).pass rfl
  | .numericFor n s l none b =>
    ((names_ofExpr s).append (names_ofExpr l)).between (names_ofStmts b)
      (.stmt (.numericFor n s l none b))
  | .numericFor n s l (some t) b =>
    (((names_ofExpr s).append (names_ofExpr l)).append (names_ofExpr t)).between (names_ofStmts b)
      (.stmt (.numericFor n s l (some t) b))
  | .genericFor ns es b =>
    (names_ofExprs es).between (names_ofStmts b) (.stmt (.genericFor ns es b))
  | .ret es => (names_ofExprs es).pass rfl
  | .exit | .goto _ | .label _ => names_nil.pass rfl

theorem names_ofElse : (o : Else) → Names (Mark.ofElse o) (Node.ofElse (fun _ => true) o)
  | .done => names_nil
  | .block b => (names_ofStmts b).enclosed
  | .elseIf c b o =>
    ((names_ofExpr c).append (names_ofStmts b).enclosed).append (names_ofElse o)

theorem names_ofStmts : (ss : List Stmt) →
    Names (Mark.ofStmts ss) (Node.ofStmts (fun _ => true) ss)
  | [] => names_nil
  | s :: ss => ((names_ofStmt s).append (names_ofStmts ss)).statement _

end

/-! ## The new names -/

theorem isIdentifier_inventedName (k : Nat) : isIdentifier (inventedName k) = true := by
  have htext : (inventedName k).toList = '_' :: 'L' :: Nat.toDigits 10 k := toList_inventedName k
  have hkeyword : Keyword.ofText? (inventedName k) = none := by
    refine List.find?_eq_none.2 fun w _ hw => ?_
    have hlead := congrArg (fun s : String => s.toList.head?) (beq_iff_eq.1 hw)
    rw [htext] at hlead
    cases w <;> cases hlead
  have hdigits : ∀ c ∈ Nat.toDigits 10 k, isNameChar c = true := by
    intro c hc
    rw [isNameChar, Decimal.isDigit_of_mem_toDigits hc, Bool.or_true]
  rw [isIdentifier, htext]
  dsimp only
  rw [hkeyword, List.all_cons, List.all_eq_true.2 hdigits]
  rfl

/-- What is declared after renaming has an invented name. -/
theorem exists_of_declare_mem {b : Block} {n : String} (h : .declare n ∈ (rename b).1.marks) :
    ∃ k, n = inventedName k := by
  obtain ⟨p, hp⟩ := List.getElem?_of_mem h
  rw [relabel_marks] at hp
  exact ⟨_, (getElem?_relabel_declare_iff.1 hp).1⟩

/-- What is used after renaming has an invented name, or one that it had before. -/
theorem of_use_mem {b : Block} {n : String} (h : .use n ∈ (rename b).1.marks) :
    (∃ k, n = inventedName k) ∨ .use n ∈ b.marks := by
  obtain ⟨q, hq⟩ := List.getElem?_of_mem h
  rw [relabel_marks] at hq
  have hused : ∃ old, b.marks[q]? = some (.use old) := by
    rw [Walk.getElem?_relabel] at hq
    obtain ⟨mark, hmark, hrenamed⟩ := Option.map_eq_some_iff.1 hq
    cases mark with
    | use old => exact ⟨old, hmark⟩
    | _ => cases hrenamed
  obtain ⟨old, hold⟩ := hused
  -- A use refers to a declaration, which has a new name, or to a global one, which is kept.
  obtain ⟨p, hrefers⟩ | hglobal := Mark.refers_or_isGlobal hold
  · have hnew := (getElem?_relabel_of_refers hrefers).symm.trans hq
    exact .inl ⟨_, (Mark.use.inj (Option.some.inj hnew)).symm⟩
  · have hnew := (getElem?_relabel_of_isGlobal hglobal).symm.trans hq
    obtain rfl := Mark.use.inj (Option.some.inj hnew)
    exact .inr (List.mem_of_getElem? hold)

end Rename

namespace Node

open Rename LuaUnpack.Lua.Node

theorem naming_of_mem_names {node : Node} {n : String} (h : n ∈ names node) :
    .declare n ∈ ownMarks node ∨ .use n ∈ ownMarks node := by
  rcases node with s | e
  · cases s <;> simp_all [names, ownMarks]
    tauto
  · cases e <;> simp_all [names, ownMarks]

theorem mem_words_of_use {node : Node} {n : String} (h : .use n ∈ ownMarks node) :
    .name n ∈ node.words := by
  rcases node with s | e
  · cases s <;> simp_all [words, ownMarks]
  · cases e <;> simp_all [words, ownMarks]

/-- A method is not read without its first parameter. -/
theorem head?_of_isMethod {node : Node} (hmethod : isMethod node = true) (h : node.HasParts) :
    .declare "self" ∈ ownMarks node := by
  rcases node with s | e
  · cases s with
    | functionDecl root path method f =>
      cases method with
      | none => cases hmethod
      | some m =>
        have hself : f.params.head? = some "self" := h
        exact List.mem_cons_of_mem _ (List.mem_map_of_mem (List.mem_of_head? hself))
    | _ => cases hmethod
  · cases hmethod

end Node

/-! ## Renamed scripts -/

section

open Rename

variable {b : Block}

theorem nameless_rename (b : Block) : nameless.onStmts (rename b).1 = nameless.onStmts b :=
  (walks_onStmts [] [] b 0).2

theorem map_bare_nodes_rename (b : Block) :
    (rename b).1.nodes.map bare = b.nodes.map bare := by
  rw [Block.nodes, Block.nodes, ← Node.ofStmts_nameless, ← Node.ofStmts_nameless, nameless_rename]

/-- The names of a renamed script are identifiers, if those of the script were. -/
theorem isIdentifier_of_mem_names (h : Printed True b.nodes) {node : Node}
    (hnode : node ∈ (rename b).1.nodes) {n : String} (hn : n ∈ Node.names node) :
    isIdentifier n = true := by
  have hmarks := names_ofStmts (rename b).1
  have hnew : (∃ k, n = inventedName k) ∨ .use n ∈ b.marks := by
    obtain hdeclare | huse := Node.naming_of_mem_names hn
    · exact .inl (exists_of_declare_mem ((hmarks _ rfl).2 ⟨node, hnode, hdeclare⟩))
    · exact of_use_mem ((hmarks _ rfl).2 ⟨node, hnode, huse⟩)
  obtain ⟨k, rfl⟩ | huse := hnew
  · exact isIdentifier_inventedName k
  · obtain ⟨old, hold, huse⟩ := (names_ofStmts b _ rfl).1 huse
    exact (h old hold).words _ (Node.mem_words_of_use huse)

/-- Every node of a renamed script was one of the script, but for the names. -/
theorem exists_of_mem_nodes_rename {node : Node} (h : node ∈ (rename b).1.nodes) :
    ∃ old ∈ b.nodes, bare node = bare old := by
  have hbare : bare node ∈ (rename b).1.nodes.map bare := List.mem_map_of_mem h
  rw [map_bare_nodes_rename] at hbare
  obtain ⟨old, hold, heq⟩ := List.mem_map.1 hbare
  exact ⟨old, hold, heq.symm⟩

/-- Without methods the nodes of a renamed script have the shape of those of the script. -/
theorem shaped_rename {W : TokenKind → Prop} (h : Node.All (Node.IsShaped W) b.nodes)
    (hmethods : ∀ node ∈ b.nodes, Node.isMethod node = false)
    (hnames : ∀ node ∈ (rename b).1.nodes, ∀ n ∈ Node.names node, W (.name n)) :
    Node.All (Node.IsShaped W) (rename b).1.nodes := by
  intro node hnode
  obtain ⟨old, hold, heq⟩ := exists_of_mem_nodes_rename hnode
  exact Node.IsShaped.of_bare (h old hold) (hmethods old hold) heq (hnames node hnode)

theorem allSeparated_rename (h : b.AllSeparated) : (rename b).1.AllSeparated := by
  constructor
  · have hb := (isSeparated_nameless b).2 h.1
    rw [← nameless_rename, isSeparated_nameless] at hb
    exact hb
  · intro node hnode
    obtain ⟨old, hold, heq⟩ := exists_of_mem_nodes_rename hnode
    exact (Node.isSeparated_iff_of_bare heq).2 (h.2 old hold)

theorem isPrintable_rename (h : parse b.print = .ok b)
    (hmethods : ∀ node ∈ b.nodes, Node.isMethod node = false) : (rename b).1.IsPrintable := by
  have hb := Block.isPrintable_of_parse_print h
  have hprinted := Block.printed_of_parse h
  have hprinted' : Printed True (rename b).1.nodes :=
    shaped_rename hprinted hmethods fun node hnode n hn =>
      isIdentifier_of_mem_names hprinted hnode hn
  have hfits := fits_blockPieces 0 hprinted' none
  refine ⟨⟨?_, ?_⟩, hfits, ?_, allSeparated_rename hb.allSeparated⟩
  · have hreturns := (returnsLast_nameless b).2 hb.isWritten.1
    rw [← nameless_rename, returnsLast_nameless] at hreturns
    exact hreturns
  · exact shaped_rename hb.isWritten.2 hmethods fun _ _ _ _ => trivial
  · exact (alike_of_nameless (nameless_rename b) defaultIndent 0).keeps hb.fits hfits hb.keeps

theorem inventedName_ne_self (k : Nat) : inventedName k ≠ "self" := by
  intro h
  have htext := congrArg String.toList h
  rw [toList_inventedName] at htext
  cases htext

/-- A renamed script that is read back from its text has no methods. -/
theorem isMethod_eq_false_of_rename (h : (rename b).1.IsPrintable) {node : Node}
    (hnode : node ∈ b.nodes) : Node.isMethod node = false := by
  have hbare : bare node ∈ b.nodes.map bare := List.mem_map_of_mem hnode
  rw [← map_bare_nodes_rename] at hbare
  obtain ⟨new, hnew, heq⟩ := List.mem_map.1 hbare
  rw [← Node.isMethod_bare, ← heq, Node.isMethod_bare]
  by_contra hmethod
  rw [Bool.not_eq_false] at hmethod
  have hself := Node.head?_of_isMethod hmethod (h.isWritten.2 new hnew).parts
  obtain ⟨k, hk⟩ := exists_of_declare_mem ((names_ofStmts (rename b).1 _ rfl).2 ⟨new, hnew, hself⟩)
  exact inventedName_ne_self k hk.symm

/-- A script that is read back from its text is still read back after renaming just if it declares
    no method: its text does not have the first parameter, which is then read as `self`, but
    renamed to something else. -/
theorem parse_print_rename_iff (h : parse b.print = .ok b) :
    parse (rename b).1.print = .ok (rename b).1 ↔
      ∀ node ∈ b.nodes, Node.isMethod node = false := by
  rw [parse_print_iff]
  exact ⟨fun h' _ hnode => isMethod_eq_false_of_rename h' hnode, isPrintable_rename h⟩

end

/-- A local function in which a parameter hides it. -/
def hidingFunction : Block := [.localFunction "f" ⟨["f"], true, [.ret [.call (.name "f") [.vararg]]]⟩]

theorem parse_print_rename_hidingFunction :
    parse hidingFunction.print = .ok hidingFunction ∧
      (rename hidingFunction).1.print =
        "local function _L0(_L1, ...)\n    return _L1(...)\nend\n" ∧
      parse (rename hidingFunction).1.print = .ok (rename hidingFunction).1 := by
  have htokens : tokenize hidingFunction.print = .ok
      [⟨.keyword .kwLocal, 1⟩, ⟨.keyword .kwFunction, 1⟩, ⟨.name "f", 1⟩, ⟨.symbol .leftParen, 1⟩,
       ⟨.name "f", 1⟩, ⟨.symbol .comma, 1⟩, ⟨.symbol .ellipsis, 1⟩, ⟨.symbol .rightParen, 1⟩,
       ⟨.keyword .kwReturn, 2⟩, ⟨.name "f", 2⟩, ⟨.symbol .leftParen, 2⟩, ⟨.symbol .ellipsis, 2⟩,
       ⟨.symbol .rightParen, 2⟩, ⟨.keyword .kwEnd, 3⟩, ⟨.eof, 4⟩] := by
    decide +kernel
  have hparse : parse hidingFunction.print = .ok hidingFunction := by
    rw [parse, htokens]
    rfl
  exact ⟨hparse, by decide, (parse_print_rename_iff hparse).2 (by decide)⟩

/-- A method that returns the table that it is called on. -/
def selfMethod : Block := [.functionDecl "a" [] (some "m") ⟨["self"], false, [.ret [.name "self"]]⟩]

/-- The text of the renamed method has a new name for `self`, but not its declaration. -/
theorem parse_print_rename_selfMethod :
    parse selfMethod.print = .ok selfMethod ∧
      (rename selfMethod).1.print = "function a:m()\n    return _L0\nend\n" ∧
      parse (rename selfMethod).1.print =
        .ok [.functionDecl "a" [] (some "m") ⟨["self"], false, [.ret [.name "_L0"]]⟩] ∧
      parse (rename selfMethod).1.print ≠ .ok (rename selfMethod).1 := by
  have hnew : (rename selfMethod).1 =
      [.functionDecl "a" [] (some "m") ⟨["_L0"], false, [.ret [.name "_L0"]]⟩] := rfl
  have hprint : (rename selfMethod).1.print = "function a:m()\n    return _L0\nend\n" := by
    decide
  -- The two texts differ in the name that is returned.
  have htokens : ∀ t ∈ [(selfMethod.print, "self"), ((rename selfMethod).1.print, "_L0")],
      tokenize t.1 = .ok
        [⟨.keyword .kwFunction, 1⟩, ⟨.name "a", 1⟩, ⟨.symbol .colon, 1⟩, ⟨.name "m", 1⟩,
         ⟨.symbol .leftParen, 1⟩, ⟨.symbol .rightParen, 1⟩, ⟨.keyword .kwReturn, 2⟩,
         ⟨.name t.2, 2⟩, ⟨.keyword .kwEnd, 3⟩, ⟨.eof, 4⟩] := by
    decide +kernel
  have hread : parse selfMethod.print = .ok selfMethod := by
    rw [parse, htokens (_, "self") (by simp)]
    rfl
  have hreadNew : parse (rename selfMethod).1.print =
      .ok [.functionDecl "a" [] (some "m") ⟨["self"], false, [.ret [.name "_L0"]]⟩] := by
    rw [parse, htokens (_, "_L0") (by simp)]
    rfl
  refine ⟨hread, hprint, hreadNew, ?_⟩
  rw [hreadNew, hnew]
  simp

end LuaUnpack.Script
