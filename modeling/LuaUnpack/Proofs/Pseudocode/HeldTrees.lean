import LuaUnpack.Proofs.Dict
import LuaUnpack.Proofs.Lua.Escapes
import LuaUnpack.Proofs.Lua.Grouping
import LuaUnpack.Proofs.Lua.Signs
import LuaUnpack.Pseudocode.Line

/-!
# The values that registers hold as expressions

Instructions that load constants and globals and compute with them build an expression for each
register they write (`treesAfter`). What the register holds is the text of that expression
without any parentheses (`Holding`). So it is read as the expression just if that needs none
(`held_reads_iff`), and otherwise it says something else or nothing at all.
-/

namespace LuaUnpack

theorem Lua.Piece.render_singleton (piece : Lua.Piece) : render [piece] = piece.text :=
  String.toList_inj.1 ((toList_render_cons piece []).trans (List.append_nil _))

/-! ## Constants -/

namespace Chunk

open Lua Decimal.Binary64

/-- A constant as an expression, if it is written as a single word. A number then is finite and
    not below zero; a zero is written without its sign. -/
def Constant.tree? : Constant → Option Expr
  | nil => some .nil
  | boolean value => some (.boolean value)
  | number bits =>
    match ofFloat (Float.ofBits bits) with
    | .finite negative m _ =>
      if negative && m != 0 then none else some (.number (unsigned (Float.ofBits bits)))
    | _ => none
  | string s => some (.string (escapedLiteral (Text.toBytes s)))

/-- The text of a constant that is a single word is that word. -/
theorem Constant.of_tree? {constant : Constant} {e : Expr} (h : constant.tree? = some e) :
    e.IsWord ∧ e.flatText = constant.text := by
  cases constant with
  | nil =>
    cases h
    exact ⟨trivial, rfl⟩
  | boolean value =>
    cases h
    exact ⟨trivial, by cases value <;> rfl⟩
  | number bits =>
    rw [tree?] at h
    split at h
    · -- Only a finite number without a sign is a single word.
      rename_i negative m q hx
      split at h
      · cases h
      · rename_i hsign
        cases h
        have hnumeral := hasNumeral_unsigned (biased_ne_of_finite hx)
        refine ⟨hnumeral, ?_⟩
        have hpieces : numberPieces (Float.ofBits bits) =
            [.token (.number (unsigned (Float.ofBits bits)))] := by
          rw [numberPieces, hx]
          exact if_neg hsign
        have hword : (Expr.number (unsigned (Float.ofBits bits))).flatPieces =
            [.token (.number (unsigned (Float.ofBits bits)))] := hnumeral.pieces
        rw [text, numberText, hpieces, Expr.flatText, hword]
    · cases h
  | string s =>
    cases h
    exact ⟨isWord_escapedLiteral _, Piece.render_singleton _⟩

end Chunk

/-! ## Operations -/

namespace Lua.Expr

open Piece

theorem render_append (left right : List Piece) :
    render (left ++ right) = render left ++ render right :=
  String.toList_inj.1 (by rw [toList_render_append, String.toList_append])

theorem flatText_binary (op : BinaryOp) (l r : Expr) :
    (Expr.binary op l r).flatText = l.flatText ++ " " ++ op.symbol ++ " " ++ r.flatText := by
  have hop : render [blank, op.piece, blank] = " " ++ op.symbol ++ " " := by cases op <;> rfl
  have hpieces : (Expr.binary op l r).flatPieces =
      l.flatPieces ++ ([blank, op.piece, blank] ++ r.flatPieces) := rfl
  rw [flatText, hpieces, render_append, render_append, hop]
  simp only [flatText, String.append_assoc]

theorem flatText_unary (op : UnaryOp) (e : Expr) :
    (Expr.unary op e).flatText = op.symbol ++ e.flatText := by
  have hop : render op.pieces = op.symbol := by cases op <;> rfl
  rw [flatText, flatPieces, render_append, hop, flatText]

end Lua.Expr

namespace Pseudocode

open Chunk Lua

variable {f : Prototype} {frame : Frame} {trees : Dict Register Expr} {i : Instruction}

/-! ## Instructions -/

/-- An operand that is a register or a constant, as an expression. -/
def operandTree? (f : Prototype) (trees : Dict Register Expr) (operand : Int32) : Option Expr :=
  if firstConstant ≤ operand.toInt then (f.constant? (operand - 256)).bind Constant.tree?
  else trees.get? operand.toInt

/-- The expression that an instruction builds from those of registers, if it loads a constant or
    a global variable or computes with what was built before. -/
def tree? (f : Prototype) (trees : Dict Register Expr) (i : Instruction) : Option Expr :=
  match i.opcode with
  | .loadK => (f.constant? i.b).bind Constant.tree?
  | .getGlobal =>
    (((f.constant? i.b).bind Constant.asString?).filter isIdentifier).map Expr.name
  | op =>
    match arithmeticOp? op, Pseudocode.unaryOp? op with
    | some operator, _ => do
      return .binary operator (← operandTree? f trees i.b) (← operandTree? f trees i.c)
    | none, some operator => (trees.get? i.b.toInt).map (Expr.unary operator)
    | none, none => none

/-- The expressions of registers after instructions, each of which reads only what was written
    before it. -/
def treesAfter (f : Prototype) (trees : Dict Register Expr) :
    List Instruction → Option (Dict Register Expr)
  | [] => some trees
  | i :: rest => do treesAfter f (trees.put i.a.toInt (← tree? f trees i)) rest

/-- Whether a frame holds the texts of expressions. -/
def Holding (frame : Frame) (trees : Dict Register Expr) : Prop :=
  ∀ r e, trees.get? r = some e → e.IsPlain ∧ frame.get? r = some e.flatText

theorem get?_hold (frame : Frame) (r r' : Register) (text : String) :
    (frame.hold r text).get? r' = if r = r' then some text else frame.get? r' := by
  rw [Frame.get?, Frame.hold, Dict.get?_put, Frame.get?]
  split <;> rfl

theorem Holding.hold {e : Expr} (h : Holding frame trees) (he : e.IsPlain) (r : Register) :
    Holding (frame.hold r e.flatText) (trees.put r e) := by
  intro r' e' hget
  rw [Dict.get?_put] at hget
  rw [get?_hold]
  split at hget
  · rename_i hr
    cases hget
    exact ⟨he, if_pos hr⟩
  · rename_i hr
    rw [if_neg hr]
    exact h r' e' hget

/-- A constant that is an expression is written as the expression. -/
theorem constantText_of_tree? {index : Int32} {e : Expr}
    (h : (f.constant? index).bind Constant.tree? = some e) :
    e.IsPlain ∧ constantText f index = e.flatText := by
  obtain ⟨constant, hconstant, htree⟩ := Option.bind_eq_some_iff.1 h
  obtain ⟨hword, htext⟩ := Constant.of_tree? htree
  refine ⟨.word hword, ?_⟩
  rw [constantText, hconstant, htext]

theorem Holding.operandText (h : Holding frame trees) {operand : Int32} {e : Expr}
    (htree : operandTree? f trees operand = some e) :
    e.IsPlain ∧ operandText f frame operand = e.flatText := by
  rw [operandTree?] at htree
  rw [Pseudocode.operandText]
  split at htree
  · rename_i hconstant
    rw [if_pos hconstant]
    exact constantText_of_tree? htree
  · rename_i hregister
    obtain ⟨hplain, hget⟩ := h _ _ htree
    rw [if_neg hregister, Frame.read, hget]
    exact ⟨hplain, rfl⟩

theorem Holding.arithmetic (h : Holding frame trees) {op : BinaryOp} {b c : Int32} {e : Expr}
    (htree : (do return Expr.binary op (← operandTree? f trees b) (← operandTree? f trees c)) =
      some e) :
    e.IsPlain ∧ Pseudocode.operandText f frame b ++ " " ++ op.symbol ++ " " ++
      Pseudocode.operandText f frame c = e.flatText := by
  obtain ⟨l, hl, htree⟩ := Option.bind_eq_some_iff.1 htree
  obtain ⟨r, hr, ⟨⟩⟩ := Option.bind_eq_some_iff.1 htree
  obtain ⟨hlplain, hltext⟩ := h.operandText hl
  obtain ⟨hrplain, hrtext⟩ := h.operandText hr
  exact ⟨.binary op hlplain hrplain, by rw [hltext, hrtext, Expr.flatText_binary]⟩

theorem Holding.unary (h : Holding frame trees) {op : UnaryOp} {b : Register} {e : Expr}
    (htree : (trees.get? b).map (Expr.unary op) = some e) :
    e.IsPlain ∧ (frame.get? b).map (op.symbol ++ ·) = some e.flatText := by
  obtain ⟨inner, hinner, rfl⟩ := Option.map_eq_some_iff.1 htree
  obtain ⟨hplain, hheld⟩ := h _ _ hinner
  exact ⟨.unary op hplain, by rw [hheld, Option.map_some, Expr.flatText_unary]⟩

/-- The text of the expression that an instruction builds is its value. -/
theorem Holding.value? (h : Holding frame trees) {e : Expr} (htree : tree? f trees i = some e) :
    e.IsPlain ∧ Pseudocode.value? f frame i = some e.flatText := by
  obtain ⟨id, opnum, opcode, a, b, c, flags, pc⟩ := i
  cases opcode
  case loadK =>
    obtain ⟨hplain, htext⟩ := constantText_of_tree? htree
    exact ⟨hplain, congrArg some htext⟩
  case getGlobal =>
    obtain ⟨name, hname, rfl⟩ := Option.map_eq_some_iff.1 htree
    obtain ⟨hconstant, hident⟩ := Option.filter_eq_some_iff.1 hname
    obtain ⟨constant, hconstant, hstring⟩ := Option.bind_eq_some_iff.1 hconstant
    have hglobal : globalName f b = name := by
      cases constant <;> cases hstring
      rw [globalName, hconstant]
    have hname : (Expr.name name).flatText = name := Piece.render_singleton _
    exact ⟨.word hident, congrArg some (hglobal.trans hname.symm)⟩
  case add | sub | mul | div | mod | pow =>
    obtain ⟨hplain, htext⟩ := h.arithmetic htree
    exact ⟨hplain, congrArg some htext⟩
  case unm | not | len => exact h.unary htree
  all_goals cases htree

theorem next_of_tree? {e : Expr} (h : tree? f trees i = some e) :
    Pseudocode.next f frame i = (match Pseudocode.value? f frame i with
      | some text => frame.hold i.a.toInt text
      | none => frame) := by
  obtain ⟨id, opnum, opcode, a, b, c, flags, pc⟩ := i
  cases opcode <;> first | rfl | cases h

/-- An instruction that builds an expression lets its register hold the text of it. -/
theorem Holding.next (h : Holding frame trees) {e : Expr} (htree : tree? f trees i = some e) :
    Holding (Pseudocode.next f frame i) (trees.put i.a.toInt e) := by
  obtain ⟨hplain, hvalue⟩ := h.value? htree
  rw [next_of_tree? htree, hvalue]
  exact h.hold hplain i.a.toInt

theorem Holding.linesFrom {code : List Instruction} (h : Holding frame trees)
    {after : Dict Register Expr} (hafter : treesAfter f trees code = some after) :
    Holding (linesFrom f frame code).2 after := by
  induction code generalizing frame trees with
  | nil =>
    cases hafter
    exact h
  | cons i code ih =>
    obtain ⟨e, htree, hrest⟩ := Option.bind_eq_some_iff.1 hafter
    exact ih (h.next htree) hrest

/-- What a register holds after instructions that build expressions is read as the one that they
    built for it just if that can do without parentheses. -/
theorem held_reads_iff (f : Prototype) (fresh : Nat) (code : List Instruction) :
    ∀ trees, treesAfter f [] code = some trees → ∀ r e, trees.get? r = some e →
      ∃ text, (Pseudocode.linesFrom f ⟨[], fresh⟩ code).2.get? r = some text ∧
        (parseExpr text = .ok e ↔ e.IsGrouped) := by
  intro trees hafter r e hget
  have hempty : Holding ⟨[], fresh⟩ [] := nofun
  obtain ⟨hplain, hheld⟩ := hempty.linesFrom hafter r e hget
  exact ⟨e.flatText, hheld, hplain.parseExpr_flatText_iff⟩

/-- A function that uses three global variables. -/
def threeGlobals : Prototype := { constants := [.string "a", .string "b", .string "c"] }

/-- The product of the sum of two global variables and a third one. -/
def sumTimes : List Instruction :=
  [.ofOpcode 0 .getGlobal 0 0 0, .ofOpcode 1 .getGlobal 1 1 0, .ofOpcode 2 .getGlobal 2 2 0,
    .ofOpcode 3 .add 0 0 1, .ofOpcode 4 .mul 0 0 2]

/-- What `sumTimes` computes. -/
def productOfSum : Expr := .binary .mul (.binary .add (.name "a") (.name "b")) (.name "c")

theorem held_reads_iff_sumTimes :
    treesAfter threeGlobals [] sumTimes =
        some [(0, productOfSum), (1, .name "b"), (2, .name "c")] ∧
      ∃ text, (Pseudocode.linesFrom threeGlobals ⟨[], 0⟩ sumTimes).2.get? 0 = some text ∧
        (parseExpr text = .ok productOfSum ↔ productOfSum.IsGrouped) :=
  ⟨by rfl, held_reads_iff threeGlobals 0 sumTimes _ (by rfl) 0 productOfSum (by rfl)⟩

/-- The product of a sum is written as a sum with a product. -/
theorem held_sumTimes_reads :
    (treesAfter threeGlobals [] sumTimes).bind (Dict.get? 0) = some productOfSum ∧
      (Pseudocode.linesFrom threeGlobals ⟨[], 0⟩ sumTimes).2.get? 0 = some "a + b * c" ∧
      parseExpr "a + b * c" =
        .ok (.binary .add (.name "a") (.binary .mul (.name "b") (.name "c"))) := by
  refine ⟨by rfl, by rfl, ?_⟩
  have hword {name : String} (h : isIdentifier name = true) : (Expr.name name).IsPlain := .word h
  have hplain : (Expr.binary .add (.name "a") (.binary .mul (.name "b") (.name "c"))).IsPlain :=
    .binary _ (hword (by decide)) (.binary _ (hword (by decide)) (hword (by decide)))
  exact hplain.parseExpr_flatText_iff.2
    ⟨⟨trivial, ⟨trivial, trivial, nofun, nofun⟩, nofun, fun _ hs => by cases hs; decide⟩, rfl⟩

end Pseudocode

end LuaUnpack
