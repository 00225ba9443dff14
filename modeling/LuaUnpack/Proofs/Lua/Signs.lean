import LuaUnpack.Proofs.Lua.Evaluation
import LuaUnpack.Proofs.Lua.RoundTrip

/-!
# Negative numbers as text

No literal is read as a negative number. A tree with negative numbers is written as the tree
is that has negations in their place, and it has the values of that tree (`Expr.Respelled`),
because a number is the negation of the number without its sign (`neg_unsigned`). So what it
is written as is read as the other tree, and evaluating the text gives what evaluating the
tree gives (`Expr.Respelled.sourceNumber`).

Only finite numbers other than negative zero are written so that they can be read back
(`isSpellable`).
-/

namespace LuaUnpack.Lua

open Piece Decimal.Binary64

/-! ## Negative numbers -/

/-- Whether a number is written so that it can be read back, with its sign: it is finite and
    not negative zero. -/
def isSpellable (x : Float) : Bool :=
  match ofFloat x with
  | .finite negative m _ => !negative || m != 0
  | _ => false

section

variable {x : Float}

theorem ofFloat_of_biased (h : x.toBits.toNat / 2 ^ 52 % 2 ^ 11 ≠ 2047) :
    ∃ m q, ofFloat x = .finite (isNegative x) m q ∧ (m = 0 ↔ x.toBits.toNat % 2 ^ 63 = 0) := by
  have hlt := x.toBits.toNat_lt
  unfold ofFloat ofBits isNegative
  simp only [twoPow, Nat.pow_eq]
  generalize x.toBits.toNat = n at *
  rw [if_neg (by simpa using h)]
  split
  · rename_i hsub
    rw [beq_iff_eq] at hsub
    exact ⟨_, _, rfl, by omega⟩
  · rename_i hsub
    rw [beq_iff_eq] at hsub
    exact ⟨_, _, rfl, by omega⟩

theorem biased_ne_of_finite {negative : Bool} {m : Nat} {q : Int}
    (h : ofFloat x = .finite negative m q) : x.toBits.toNat / 2 ^ 52 % 2 ^ 11 ≠ 2047 := by
  intro hbiased
  unfold ofFloat ofBits at h
  simp only [twoPow, Nat.pow_eq, hbiased, beq_self_eq_true, if_true] at h
  by_cases hzero : (x.toBits.toNat % 2 ^ 52 == 0) = true
  · simp only [if_pos hzero] at h
    cases h
  · simp only [if_neg hzero] at h
    cases h

/-- A spellable number is finite, and if it is negative its magnitude is not zero. -/
theorem bits_of_isSpellable (h : isSpellable x = true) :
    x.toBits.toNat / 2 ^ 52 % 2 ^ 11 ≠ 2047 ∧
      (isNegative x = true → x.toBits.toNat % 2 ^ 63 ≠ 0) := by
  have hfinite : x.toBits.toNat / 2 ^ 52 % 2 ^ 11 ≠ 2047 := by
    cases hx : ofFloat x with
    | finite negative m q => exact biased_ne_of_finite hx
    | nan | infinite =>
      rw [isSpellable, hx] at h
      cases h
  obtain ⟨m, q, hx, hm⟩ := ofFloat_of_biased hfinite
  refine ⟨hfinite, fun hnegative hzero => ?_⟩
  rw [isSpellable, hx, hnegative, hm.2 hzero] at h
  cases h

theorem toNat_and_mask (b : UInt64) : (b &&& 0x7FFFFFFFFFFFFFFF).toNat = b.toNat % 2 ^ 63 := by
  rw [UInt64.toNat_and]
  exact Nat.and_two_pow_sub_one_eq_mod b.toNat 63

/-- The bits of a finite number without its sign. -/
theorem toBits_unsigned (h : x.toBits.toNat / 2 ^ 52 % 2 ^ 11 ≠ 2047) :
    (unsigned x).toBits = x.toBits &&& 0x7FFFFFFFFFFFFFFF := by
  refine toBits_ofBits ?_
  rw [toNat_and_mask]
  change _ ≤ 2047 * 2 ^ 52
  have := x.toBits.toNat_lt
  omega

section

open Float.Model

variable {b c : BitVec 64}

theorem neg_unpack
    (hmantissa : @UnpackedFloat.unpackMantissa .binary64 c =
      @UnpackedFloat.unpackMantissa .binary64 b)
    (hexponent : @UnpackedFloat.unpackExponent .binary64 c =
      @UnpackedFloat.unpackExponent .binary64 b)
    (hpositive : @UnpackedFloat.unpackSign .binary64 c = 0#1)
    (hnegative : @UnpackedFloat.unpackSign .binary64 b = 1#1) :
    (UnpackedFloat.unpack .binary64 c).neg = UnpackedFloat.unpack .binary64 b := by
  unfold UnpackedFloat.unpack
  simp only [hmantissa, hexponent, hpositive, hnegative]
  split_ifs <;> rfl

theorem toNat_unpackMantissa (b : BitVec 64) :
    (@UnpackedFloat.unpackMantissa .binary64 b).toNat = b.toNat % 2 ^ 52 := by
  simp [UnpackedFloat.unpackMantissa]

theorem toNat_unpackExponent (b : BitVec 64) :
    (@UnpackedFloat.unpackExponent .binary64 b).toNat = b.toNat / 2 ^ 52 % 2 ^ 11 := by
  simp [UnpackedFloat.unpackExponent, Nat.shiftRight_eq_div_pow]

theorem toNat_unpackSign (b : BitVec 64) :
    (@UnpackedFloat.unpackSign .binary64 b).toNat = b.toNat / 2 ^ 63 % 2 := by
  simp [UnpackedFloat.unpackSign, Nat.shiftRight_eq_div_pow]

end

/-- A negative number is the negation of the number without its sign. -/
theorem neg_unsigned (hfinite : x.toBits.toNat / 2 ^ 52 % 2 ^ 11 ≠ 2047)
    (hnegative : isNegative x = true) : -unsigned x = x := by
  have hbits := toBits_unsigned hfinite
  have hmask : (unsigned x).toBits.toNat = x.toBits.toNat % 2 ^ 63 := by
    rw [hbits, toNat_and_mask]
  have hsign : x.toBits.toNat / 2 ^ 63 = 1 := beq_iff_eq.1 hnegative
  -- The two differ in the highest bit only: mantissa and exponent are the same.
  have hneg : ((unsigned x).toModel.unpack).neg = x.toModel.unpack := by
    refine neg_unpack (BitVec.eq_of_toNat_eq ?_) (BitVec.eq_of_toNat_eq ?_)
      (BitVec.eq_of_toNat_eq ?_) (BitVec.eq_of_toNat_eq ?_)
    · rw [toNat_unpackMantissa, toNat_unpackMantissa]
      change (unsigned x).toBits.toNat % 2 ^ 52 = x.toBits.toNat % 2 ^ 52
      omega
    · rw [toNat_unpackExponent, toNat_unpackExponent]
      change (unsigned x).toBits.toNat / 2 ^ 52 % 2 ^ 11 = x.toBits.toNat / 2 ^ 52 % 2 ^ 11
      omega
    · rw [toNat_unpackSign]
      change (unsigned x).toBits.toNat / 2 ^ 63 % 2 = 0
      omega
    · rw [toNat_unpackSign]
      change x.toBits.toNat / 2 ^ 63 % 2 = 1
      omega
  have hofBits : -unsigned x = Float.ofBits x.toBits :=
    congrArg (fun unpacked => Float.ofModel (.pack unpacked)) hneg
  rw [hofBits, Float.ofBits_toBits]

/-- Only a zero is equal to zero. -/
theorem beq_zero_eq_false (h : x.toBits.toNat % 2 ^ 63 ≠ 0) : (x == 0) = false := by
  rw [Value.beq_eq_compare, beq_eq_false_iff_ne]
  have hzero : (0 : Float).toModel.unpack = .zero .positive := by rfl
  rw [hzero]
  intro hcompare
  -- Equal to zero is only what unpacks to a zero, and that has no other bits.
  have hunpack : ∃ sign, x.toModel.unpack = .zero sign := by
    rcases hx : x.toModel.unpack with (_ | _) | _ | sign | ⟨_ | _, _, _, _⟩
    case zero => exact ⟨sign, rfl⟩
    all_goals
      rw [hx] at hcompare
      cases hcompare
  obtain ⟨sign, hunpack⟩ := hunpack
  apply h
  unfold Float.Model.unpack Float.Model.UnpackedFloat.unpack at hunpack
  dsimp only at hunpack
  split_ifs at hunpack with _ _ hexponent hmantissa
  have hexponent := (toNat_unpackExponent x.toModel.toBits.toBitVec).symm.trans
    (congrArg BitVec.toNat hexponent)
  have hmantissa := (toNat_unpackMantissa x.toModel.toBits.toBitVec).symm.trans
    (congrArg BitVec.toNat hmantissa)
  change x.toBits.toNat / 2 ^ 52 % 2 ^ 11 = 0 at hexponent
  change x.toBits.toNat % 2 ^ 52 = 0 at hmantissa
  omega

theorem isNegativeNumber_eq (h : isSpellable x = true) : isNegativeNumber x = isNegative x := by
  cases hnegative : isNegative x with
  | false => rw [isNegativeNumber, hnegative, Bool.false_and]
  | true =>
    rw [isNegativeNumber, hnegative, bne, beq_zero_eq_false ((bits_of_isSpellable h).2 hnegative)]
    rfl

theorem isNegative_unsigned (h : isSpellable x = true) : isNegative (unsigned x) = false := by
  unfold isNegative
  rw [toBits_unsigned (bits_of_isSpellable h).1, toNat_and_mask]
  exact beq_false_of_ne (by change x.toBits.toNat % 2 ^ 63 / 2 ^ 63 ≠ 1; omega)

/-- A finite number without its sign has a numeral. -/
theorem hasNumeral_unsigned (hfinite : x.toBits.toNat / 2 ^ 52 % 2 ^ 11 ≠ 2047) :
    HasNumeral (unsigned x) := by
  have hbits : (unsigned x).toBits.toNat = x.toBits.toNat % 2 ^ 63 := by
    rw [toBits_unsigned hfinite, toNat_and_mask]
  refine hasNumeral_of_isUnsigned ?_ fun hinfinite => ?_
  · change (unsigned x).toBits.toNat ≤ 2047 * 2 ^ 52
    omega
  · obtain ⟨m, q, hx, -⟩ := ofFloat_of_biased (x := unsigned x) (by omega)
    rw [hx] at hinfinite
    cases hinfinite

theorem unsigned_eq (h : isSpellable x = true) (hpositive : isNegative x = false) :
    unsigned x = x := by
  have hfinite := (bits_of_isSpellable h).1
  have hlt := x.toBits.toNat_lt
  have hsign : x.toBits.toNat / 2 ^ 63 ≠ 1 := ne_of_beq_false hpositive
  refine unsigned_of_isUnsigned ?_
  change x.toBits.toNat ≤ 2047 * 2 ^ 52
  omega

theorem numberPieces_of_isNegative (h : isSpellable x = true) (hnegative : isNegative x = true) :
    numberPieces x = [sym .minus, token (.number (unsigned x))] := by
  obtain ⟨hfinite, hzero⟩ := bits_of_isSpellable h
  obtain ⟨m, q, hx, hm⟩ := ofFloat_of_biased hfinite
  have hm : (m != 0) = true := bne_iff_ne.2 fun hm' => hzero hnegative (hm.1 hm')
  rw [numberPieces, hx, hnegative]
  simp only [hm, Bool.and_self, if_true]

end

/-! ## Trees that are written alike -/

/-- Whether the last one of pieces is a token. -/
def Piece.EndsToken (pieces : List Piece) : Prop := ∃ before last, pieces = before ++ [token last]

theorem Piece.EndsToken.append {right : List Piece} (h : EndsToken right) (left : List Piece) :
    EndsToken (left ++ right) := by
  obtain ⟨before, last, rfl⟩ := h
  exact ⟨left ++ before, last, (List.append_assoc _ _ _).symm⟩

theorem Piece.EndsToken.cons {right : List Piece} (h : EndsToken right) (piece : Piece) :
    EndsToken (piece :: right) := h.append [piece]

/-- Whether a word of a tree can be read back, a number with its sign. -/
def TokenKind.IsSpellable : TokenKind → Prop
  | number x => isSpellable x = true
  | kind => kind.IsReadable

/-- Words that are names, of which two properties ask the same. -/
theorem forall_names (W W' : TokenKind → Prop) (names : List String)
    (hnames : ∀ n, W (.name n) → W' (.name n)) (h : ∀ word ∈ names.map TokenKind.name, W word) :
    ∀ word ∈ names.map TokenKind.name, W' word := by
  intro word hword
  obtain ⟨n, -, rfl⟩ := List.mem_map.1 hword
  exact hnames n (h _ hword)

/-- Whether a node has the shape of one that was read and is no function. -/
structure Node.IsFlat (W : TokenKind → Prop) (node : Node) : Prop where
  shaped : node.IsShaped W
  isFunction : node.isFunction = false

/-- Whether a node, if it is an expression, has words that can be spelled and is no function. -/
def Node.CanRespell (node : Node) : Prop :=
  ∀ e, node = .expr e → node.IsFlat TokenKind.IsSpellable

/-- Whether all that is asked about an operand before it is written, and about a callee before
    it is called, is answered by another expression in the same way. -/
structure Expr.Resembles (e e' : Expr) : Prop where
  strength : e'.strength? = e.strength?
  parens : ∀ op, e'.needsParensUnder op = e.needsParensUnder op
  suffix : e'.takesSuffix = e.takesSuffix
  multiple : e'.isMultiple = e.isMultiple
  vararg : e' = .vararg → e = .vararg
  name : e'.asName? = e.asName?
  functionName : Eval.functionName? e' = Eval.functionName? e

/-- Whether an expression is written as another one and has its values, and is one that can
    have been read. -/
structure Expr.Respelled (e e' : Expr) : Prop extends Expr.Resembles e e' where
  pieces : e'.pieces = e.pieces
  ends : EndsToken e'.pieces
  values : Eval.values e' = Eval.values e
  nodes : Node.All (Node.IsFlat TokenKind.IsReadable) e'.nodes

/-- Whether a table entry is written as another one and has its values. -/
inductive Field.Respelled : Field → Field → Prop
  | positional {e e' : Expr} (h : e.Respelled e') : Respelled (.positional e) (.positional e')
  | named (n : String) {e e' : Expr} (h : e.Respelled e') : Respelled (.named n e) (.named n e')
  | keyed {k k' e e' : Expr} (hk : k.Respelled k') (h : e.Respelled e') :
      Respelled (.keyed k e) (.keyed k' e')

section

variable {e e' l l' r r' : Expr} {es es' : List Expr} {fs fs' : List Field}

theorem Expr.Respelled.print (h : e.Respelled e') : e'.print = e.print := congrArg render h.pieces

theorem Expr.Respelled.needsParens (h : e.Respelled e') (op : BinaryOp) (isLeft : Bool) :
    e'.needsParens op isLeft = e.needsParens op isLeft := by
  rw [Expr.needsParens, Expr.needsParens, h.strength]

/-! ### Lists -/

theorem moreListPieces_of_respelled (h : List.Forall₂ Expr.Respelled es es') :
    moreListPieces es' = moreListPieces es := by
  induction h with
  | nil => rfl
  | cons h _ ih => rw [moreListPieces, moreListPieces, h.pieces, ih]

theorem listPieces_of_respelled (h : List.Forall₂ Expr.Respelled es es') :
    listPieces es' = listPieces es := by
  cases h with
  | nil => rfl
  | cons h hs => rw [listPieces, listPieces, h.pieces, moreListPieces_of_respelled hs]

theorem argValues_of_respelled (h : List.Forall₂ Expr.Respelled es es') :
    Eval.argValues es' = Eval.argValues es := by
  induction h with
  | nil => rfl
  | cons h hs ih =>
    cases hs with
    | nil => exact h.values
    | cons h' hs =>
      have hcons (e₁ e₂ : Expr) (rest : List Expr) : Eval.argValues (e₁ :: e₂ :: rest) = do
          let value := Eval.firstValue (← Eval.values e₁)
          return value :: (← Eval.argValues (e₂ :: rest)) := rfl
      rw [hcons, hcons, h.values, ih]

theorem nodes_of_respelled (h : List.Forall₂ Expr.Respelled es es') :
    Node.All (Node.IsFlat TokenKind.IsReadable) (Node.ofExprs (fun _ => true) es') := by
  induction h with
  | nil => exact Node.all_nil
  | cons h _ ih => exact Node.all_append_iff.2 ⟨h.nodes, ih⟩

theorem Field.Respelled.pieces {f f' : Field} (h : f.Respelled f') : f'.pieces = f.pieces := by
  cases h with
  | positional h => exact h.pieces
  | named n h => rw [Field.pieces, Field.pieces, h.pieces]
  | keyed hk h => rw [Field.pieces, Field.pieces, hk.pieces, h.pieces]

theorem moreFieldsPieces_of_respelled (h : List.Forall₂ Field.Respelled fs fs') :
    moreFieldsPieces fs' = moreFieldsPieces fs := by
  induction h with
  | nil => rfl
  | cons h _ ih => rw [moreFieldsPieces, moreFieldsPieces, h.pieces, ih]

theorem fieldsPieces_of_respelled (h : List.Forall₂ Field.Respelled fs fs') :
    fieldsPieces fs' = fieldsPieces fs := by
  cases h with
  | nil => rfl
  | cons h hs => rw [fieldsPieces, fieldsPieces, h.pieces, moreFieldsPieces_of_respelled hs]

theorem items_of_respelled (h : List.Forall₂ Field.Respelled fs fs') :
    Eval.items fs' = Eval.items fs := by
  induction h with
  | nil => rfl
  | cons h _ ih =>
    cases h with
    | positional h => rw [Eval.items, Eval.items, h.values, ih]
    | named n h => rfl
    | keyed hk h => rfl

theorem fieldNames_of_respelled (h : List.Forall₂ Field.Respelled fs fs') :
    fs'.filterMap Node.fieldName? = fs.filterMap Node.fieldName? := by
  induction h with
  | nil => rfl
  | cons h _ ih =>
    rw [List.filterMap_cons, List.filterMap_cons, ih]
    cases h <;> rfl

theorem nodes_of_respelledFields (h : List.Forall₂ Field.Respelled fs fs') :
    Node.All (Node.IsFlat TokenKind.IsReadable) (Node.ofFields (fun _ => true) fs') := by
  induction h with
  | nil => exact Node.all_nil
  | cons h _ ih =>
    refine Node.all_append_iff.2 ⟨?_, ih⟩
    cases h with
    | positional h => exact h.nodes
    | named n h => exact h.nodes
    | keyed hk h => exact Node.all_append_iff.2 ⟨hk.nodes, h.nodes⟩

/-! ### Expressions -/

namespace Expr

theorem respelled_self (hends : EndsToken e.pieces)
    (hnodes : Node.All (Node.IsFlat TokenKind.IsReadable) e.nodes) : e.Respelled e where
  toResembles := ⟨rfl, fun _ => rfl, rfl, rfl, id, rfl, rfl⟩
  pieces := rfl
  ends := hends
  values := rfl
  nodes := hnodes

theorem nodes_number {y : Float} (h : HasNumeral y) :
    Node.All (Node.IsFlat TokenKind.IsReadable) (Expr.number y).nodes :=
  Node.all_above_iff.2 ⟨⟨⟨List.forall_mem_singleton.2 h, trivial, nofun⟩, rfl⟩, Node.all_nil⟩

/-- A negative number is respelled as a negation. -/
theorem respelled_negative {x : Float} (h : isSpellable x = true)
    (hnegative : isNegative x = true) :
    (Expr.number x).Respelled (.unary .negate (.number (unsigned x))) :=
  have hnumeral := hasNumeral_unsigned (bits_of_isSpellable h).1
  have hplain : (Expr.number (unsigned x)).needsParensUnder .negate = false := by
    rw [needsParensUnder, strength?, isNegativeNumber, isNegative_unsigned h]
    rfl
  have hpieces : (Expr.unary .negate (.number (unsigned x))).pieces =
      [sym .minus, token (.number (unsigned x))] := by
    rw [pieces, hplain, pieces, hnumeral.pieces]
    rfl
  have hstrength : (Expr.number x).strength? = some UnaryOp.strength := by
    rw [strength?, isNegativeNumber_eq h, hnegative, if_pos rfl]
  have hparens (op : UnaryOp) : (Expr.unary .negate (.number (unsigned x))).needsParensUnder op =
      (Expr.number x).needsParensUnder op := by
    rw [needsParensUnder, needsParensUnder, hstrength, hnegative]
    rfl
  { toResembles := ⟨hstrength.symm, hparens, rfl, rfl, nofun, rfl, rfl⟩
    pieces := by rw [hpieces, pieces, numberPieces_of_isNegative h hnegative]
    ends := ⟨[sym .minus], _, hpieces⟩
    values := congrArg (fun y => Except.ok [Value.number y])
      (neg_unsigned (bits_of_isSpellable h).1 hnegative)
    nodes := Node.all_above_iff.2 ⟨⟨⟨nofun, trivial, nofun⟩, rfl⟩, nodes_number hnumeral⟩ }

theorem exists_respelled_number {x : Float} (h : isSpellable x = true) :
    ∃ e', (Expr.number x).Respelled e' := by
  cases hnegative : isNegative x with
  | false =>
    have hnumeral := hasNumeral_unsigned (bits_of_isSpellable h).1
    rw [unsigned_eq h hnegative] at hnumeral
    exact ⟨.number x, respelled_self ⟨[], _, hnumeral.pieces⟩ (nodes_number hnumeral)⟩
  | true => exact ⟨_, respelled_negative h hnegative⟩

attribute [local simp] Eval.values

theorem functionName?_member (t : Expr) (k : String) :
    Eval.functionName? (.member t k) = t.asName?.map (· ++ "." ++ k) := by
  cases t <;> rfl

theorem respelled_member {k : String} (h : e.Respelled e')
    (hnode : (Node.expr (.member e k)).IsFlat TokenKind.IsSpellable) :
    (Expr.member e k).Respelled (.member e' k) := by
  have hpieces : (Expr.member e' k).pieces = (Expr.member e k).pieces := by
    rw [pieces, pieces, h.pieces, h.suffix]
  have hname : Eval.functionName? (.member e' k) = Eval.functionName? (.member e k) := by
    rw [functionName?_member, functionName?_member, h.name]
  have hwords := forall_names TokenKind.IsSpellable TokenKind.IsReadable [k] (fun _ => id)
    hnode.shaped.words
  exact {
    toResembles := ⟨rfl, fun _ => rfl, rfl, rfl, nofun, rfl, hname⟩
    pieces := hpieces
    ends := EndsToken.append ⟨[sym .dot], .name k, rfl⟩ _
    values := congrArg (fun p => Except.error (EvalError.unsupported (render p))) hpieces
    nodes := Node.all_above_iff.2
      ⟨⟨⟨hwords, fun hv => hnode.shaped.parts (h.vararg hv), nofun⟩, rfl⟩, h.nodes⟩ }

theorem respelled_index (hl : l.Respelled l') (hr : r.Respelled r')
    (hnode : (Node.expr (.index l r)).IsFlat TokenKind.IsSpellable) :
    (Expr.index l r).Respelled (.index l' r') := by
  have hpieces : (Expr.index l' r').pieces = (Expr.index l r).pieces := by
    rw [pieces, pieces, hl.pieces, hl.suffix, hr.pieces]
  exact {
    toResembles := ⟨rfl, fun _ => rfl, rfl, rfl, nofun, rfl, rfl⟩
    pieces := hpieces
    ends := ⟨_, .symbol .rightBracket, rfl⟩
    values := congrArg (fun p => Except.error (EvalError.unsupported (render p))) hpieces
    nodes := Node.all_above_iff.2
      ⟨⟨⟨nofun, fun hv => hnode.shaped.parts (hl.vararg hv), nofun⟩, rfl⟩,
        Node.all_append_iff.2 ⟨hl.nodes, hr.nodes⟩⟩ }

theorem respelled_call (h : e.Respelled e') (hs : List.Forall₂ Expr.Respelled es es')
    (hnode : (Node.expr (.call e es)).IsFlat TokenKind.IsSpellable) :
    (Expr.call e es).Respelled (.call e' es') where
  toResembles := ⟨rfl, fun _ => rfl, rfl, rfl, nofun, rfl, rfl⟩
  pieces := by rw [pieces, pieces, h.pieces, h.suffix, listPieces_of_respelled hs]
  ends := EndsToken.append ⟨_, .symbol .rightParen, rfl⟩ _
  values := by
    simp [h.functionName, h.print, argValues_of_respelled hs]
  nodes := Node.all_above_iff.2
    ⟨⟨⟨nofun, fun hv => hnode.shaped.parts (h.vararg hv), nofun⟩, rfl⟩,
      Node.all_append_iff.2 ⟨h.nodes, nodes_of_respelled hs⟩⟩

theorem respelled_methodCall {m : String} (h : e.Respelled e')
    (hs : List.Forall₂ Expr.Respelled es es')
    (hnode : (Node.expr (.methodCall e m es)).IsFlat TokenKind.IsSpellable) :
    (Expr.methodCall e m es).Respelled (.methodCall e' m es') := by
  have hpieces : (Expr.methodCall e' m es').pieces = (Expr.methodCall e m es).pieces := by
    rw [pieces, pieces, h.pieces, h.suffix, listPieces_of_respelled hs]
  have hprint : (Expr.methodCall e' m es').print = (Expr.methodCall e m es).print :=
    congrArg render hpieces
  have hwords := forall_names TokenKind.IsSpellable TokenKind.IsReadable [m] (fun _ => id)
    hnode.shaped.words
  exact {
    toResembles := ⟨rfl, fun _ => rfl, rfl, rfl, nofun, rfl, rfl⟩
    pieces := hpieces
    ends := EndsToken.append ⟨sym .colon :: ident m :: sym .leftParen :: listPieces es', _, rfl⟩ _
    values := by simp [h.values, hprint, argValues_of_respelled hs]
    nodes := Node.all_above_iff.2
      ⟨⟨⟨hwords, fun hv => hnode.shaped.parts (h.vararg hv), nofun⟩, rfl⟩,
        Node.all_append_iff.2 ⟨h.nodes, nodes_of_respelled hs⟩⟩ }

theorem respelled_table (h : List.Forall₂ Field.Respelled fs fs')
    (hnode : (Node.expr (.table fs)).IsFlat TokenKind.IsSpellable) :
    (Expr.table fs).Respelled (.table fs') := by
  have hpieces : (Expr.table fs').pieces = (Expr.table fs).pieces := by
    rw [pieces, pieces, fieldsPieces_of_respelled h]
  have hprint : (Expr.table fs').print = (Expr.table fs).print := congrArg render hpieces
  have hwords : ∀ word ∈ (fs'.filterMap Node.fieldName?).map TokenKind.name,
      word.IsReadable := by
    rw [fieldNames_of_respelled h]
    exact forall_names TokenKind.IsSpellable _ _ (fun _ => id) hnode.shaped.words
  exact {
    toResembles := ⟨rfl, fun _ => rfl, rfl, rfl, nofun, rfl, rfl⟩
    pieces := hpieces
    ends := ⟨_, .symbol .rightBrace, rfl⟩
    values := by simp [items_of_respelled h, hprint]
    nodes := Node.all_above_iff.2
      ⟨⟨⟨hwords, trivial, nofun⟩, rfl⟩, nodes_of_respelledFields h⟩ }

theorem respelled_paren (h : e.Respelled e')
    (hnode : (Node.expr (.paren e)).IsFlat TokenKind.IsSpellable) :
    (Expr.paren e).Respelled (.paren e') where
  toResembles := ⟨rfl, fun _ => rfl, rfl, rfl, nofun, rfl, h.functionName⟩
  pieces := by rw [pieces, pieces, h.pieces]
  ends := ⟨_, .symbol .rightParen, rfl⟩
  values := by simp [h.values]
  nodes := Node.all_above_iff.2
    ⟨⟨⟨nofun, h.multiple.trans hnode.shaped.parts, nofun⟩, rfl⟩, h.nodes⟩

theorem Respelled.ends_parensIf (h : e.Respelled e') (condition : Bool) :
    EndsToken (parensIf condition e'.pieces) := by
  cases condition with
  | false => exact h.ends
  | true => exact ⟨_, .symbol .rightParen, rfl⟩

theorem respelled_unary {op : UnaryOp} (h : e.Respelled e') :
    (Expr.unary op e).Respelled (.unary op e') := by
  have hpieces : (Expr.unary op e').pieces = (Expr.unary op e).pieces := by
    rw [pieces, pieces, h.pieces, h.parens]
  have hparens (op' : UnaryOp) : (Expr.unary op e').needsParensUnder op' =
      (Expr.unary op e).needsParensUnder op' := by
    cases op <;> rfl
  exact {
    toResembles := ⟨rfl, hparens, rfl, rfl, nofun, rfl, rfl⟩
    pieces := hpieces
    ends := (h.ends_parensIf _).append op.pieces
    values := by
      simp [h.values, Eval.unary_congr (congrArg render hpieces)]
    nodes := Node.all_above_iff.2 ⟨⟨⟨nofun, trivial, nofun⟩, rfl⟩, h.nodes⟩ }

theorem respelled_binary {op : BinaryOp} (hl : l.Respelled l') (hr : r.Respelled r') :
    (Expr.binary op l r).Respelled (.binary op l' r') := by
  have hpieces : (Expr.binary op l' r').pieces = (Expr.binary op l r).pieces := by
    rw [pieces, pieces, hl.pieces, hr.pieces, hl.needsParens, hr.needsParens]
  have hbinary (a b : Value) : Eval.binary op a b (.binary op l' r') =
      Eval.binary op a b (.binary op l r) := Eval.binary_congr (congrArg render hpieces)
  exact {
    toResembles := ⟨rfl, fun _ => rfl, rfl, rfl, nofun, rfl, rfl⟩
    pieces := hpieces
    ends := ((((hr.ends_parensIf _).cons blank).cons op.piece).cons blank).append _
    values := by cases op <;> simp [hl.values, hr.values, hbinary]
    nodes := Node.all_above_iff.2 ⟨⟨⟨nofun, trivial, nofun⟩, rfl⟩,
      Node.all_append_iff.2 ⟨hl.nodes, hr.nodes⟩⟩ }

/-- An expression of one token, which can be read. -/
theorem respelled_token {kind : TokenKind} (hpieces : e.pieces = [.token kind])
    (hnodes : e.nodes = [.expr e]) (hnode : (Node.expr e).IsFlat TokenKind.IsReadable) :
    e.Respelled e :=
  respelled_self ⟨[], kind, hpieces⟩ (hnodes ▸ Node.all_above_iff.2 ⟨hnode, Node.all_nil⟩)

/-! ### All trees -/

mutual

/-- Every expression with spellable words has one that is written alike and can be read. -/
theorem exists_respelled : (e : Expr) →
    Node.All Node.CanRespell e.nodes → ∃ e', e.Respelled e'
  | .nil, _ => ⟨_, respelled_token rfl rfl ⟨⟨nofun, trivial, nofun⟩, rfl⟩⟩
  | .boolean _, _ => ⟨_, respelled_token rfl rfl ⟨⟨nofun, trivial, nofun⟩, rfl⟩⟩
  | .vararg, _ => ⟨_, respelled_token rfl rfl ⟨⟨nofun, trivial, nofun⟩, rfl⟩⟩
  | .name n, h =>
    have hwords := forall_names TokenKind.IsSpellable TokenKind.IsReadable [n] (fun _ => id)
      ((Node.all_above_iff.1 h).1 _ rfl).shaped.words
    ⟨_, respelled_token rfl rfl ⟨⟨hwords, trivial, nofun⟩, rfl⟩⟩
  | .string l, h =>
    have hword : TokenKind.IsReadable (.string l) :=
      ((Node.all_above_iff.1 h).1 _ rfl).shaped.words _ List.mem_cons_self
    ⟨_, respelled_token rfl rfl ⟨⟨List.forall_mem_singleton.2 hword, trivial, nofun⟩, rfl⟩⟩
  -- Only here something is written differently: a negative number as a negation.
  | .number x, h =>
    exists_respelled_number (((Node.all_above_iff.1 h).1 _ rfl).shaped.words _ List.mem_cons_self)
  | .member t k, h => by
    obtain ⟨hnode, ht⟩ := Node.all_above_iff.1 h
    obtain ⟨t', ht⟩ := t.exists_respelled ht
    exact ⟨_, respelled_member ht (hnode _ rfl)⟩
  | .index t k, h => by
    obtain ⟨hnode, hparts⟩ := Node.all_above_iff.1 h
    obtain ⟨t', ht⟩ := t.exists_respelled (Node.all_append_iff.1 hparts).1
    obtain ⟨k', hk⟩ := k.exists_respelled (Node.all_append_iff.1 hparts).2
    exact ⟨_, respelled_index ht hk (hnode _ rfl)⟩
  | .call f args, h => by
    obtain ⟨hnode, hparts⟩ := Node.all_above_iff.1 h
    obtain ⟨f', hf⟩ := f.exists_respelled (Node.all_append_iff.1 hparts).1
    obtain ⟨args', hargs⟩ := exists_respelled_exprs args (Node.all_append_iff.1 hparts).2
    exact ⟨_, respelled_call hf hargs (hnode _ rfl)⟩
  | .methodCall o m args, h => by
    obtain ⟨hnode, hparts⟩ := Node.all_above_iff.1 h
    obtain ⟨o', ho⟩ := o.exists_respelled (Node.all_append_iff.1 hparts).1
    obtain ⟨args', hargs⟩ := exists_respelled_exprs args (Node.all_append_iff.1 hparts).2
    exact ⟨_, respelled_methodCall ho hargs (hnode _ rfl)⟩
  | .function ⟨_, _, _⟩, h => nomatch ((Node.all_above_iff.1 h).1 _ rfl).isFunction
  | .table fields, h => by
    obtain ⟨hnode, hparts⟩ := Node.all_above_iff.1 h
    obtain ⟨fields', hfields⟩ := exists_respelled_fields fields hparts
    exact ⟨_, respelled_table hfields (hnode _ rfl)⟩
  | .binary op l r, h => by
    obtain ⟨hl, hr⟩ := Node.all_append_iff.1 (Node.all_above_iff.1 h).2
    obtain ⟨l', hl⟩ := l.exists_respelled hl
    obtain ⟨r', hr⟩ := r.exists_respelled hr
    exact ⟨_, respelled_binary hl hr⟩
  | .unary op e, h => by
    obtain ⟨e', he⟩ := e.exists_respelled (Node.all_above_iff.1 h).2
    exact ⟨_, respelled_unary he⟩
  | .paren e, h => by
    obtain ⟨hnode, he⟩ := Node.all_above_iff.1 h
    obtain ⟨e', he⟩ := e.exists_respelled he
    exact ⟨_, respelled_paren he (hnode _ rfl)⟩

theorem exists_respelled_exprs : (es : List Expr) →
    Node.All Node.CanRespell (Node.ofExprs (fun _ => true) es) →
    ∃ es', List.Forall₂ Expr.Respelled es es'
  | [], _ => ⟨[], .nil⟩
  | e :: es, h => by
    obtain ⟨e', he⟩ := e.exists_respelled (Node.all_append_iff.1 h).1
    obtain ⟨es', hes⟩ := exists_respelled_exprs es (Node.all_append_iff.1 h).2
    exact ⟨e' :: es', .cons he hes⟩

theorem exists_respelled_field : (f : Field) →
    Node.All Node.CanRespell (Node.ofField (fun _ => true) f) →
    ∃ f', f.Respelled f'
  | .positional e, h => by
    obtain ⟨e', he⟩ := e.exists_respelled h
    exact ⟨_, .positional he⟩
  | .named n e, h => by
    obtain ⟨e', he⟩ := e.exists_respelled h
    exact ⟨_, .named n he⟩
  | .keyed k e, h => by
    obtain ⟨k', hk⟩ := k.exists_respelled (Node.all_append_iff.1 h).1
    obtain ⟨e', he⟩ := e.exists_respelled (Node.all_append_iff.1 h).2
    exact ⟨_, .keyed hk he⟩

theorem exists_respelled_fields : (fs : List Field) →
    Node.All Node.CanRespell (Node.ofFields (fun _ => true) fs) →
    ∃ fs', List.Forall₂ Field.Respelled fs fs'
  | [], _ => ⟨[], .nil⟩
  | f :: fs, h => by
    obtain ⟨f', hf⟩ := exists_respelled_field f (Node.all_append_iff.1 h).1
    obtain ⟨fs', hfs⟩ := exists_respelled_fields fs (Node.all_append_iff.1 h).2
    exact ⟨f' :: fs', .cons hf hfs⟩

end

end Expr

end

/-! ## Evaluating a text -/

/-- A token that can be read does not end with a blank. -/
theorem TokenKind.IsReadable.last_not_blank {kind : TokenKind} (h : kind.IsReadable) :
    ∀ c ∈ (Piece.text (.token kind)).toList.getLast?, Text.isBlank c = false := by
  have hletter {c : Char} (hc : isNameStart c = true) : Text.isBlank c = false := by
    have := Lexer.isNameStart_iff.1 hc
    exact Lexer.isBlank_eq_false (by omega) (by omega)
  have hdigit {c : Char} (hc : Text.isDigit c = true) : Text.isBlank c = false := by
    have := Lexer.isDigit_iff.1 hc
    exact Lexer.isBlank_eq_false (by omega) (by omega)
  intro c hc
  have hmem := List.mem_of_getLast? hc
  -- Names and keywords end with a letter or digit, strings with their quote.
  cases kind with
  | name n =>
    have hspelled : (TokenKind.name n).IsSpelled False := h.isSpelled
    obtain ⟨first, rest, htext⟩ := List.exists_cons_of_ne_nil (Lexer.text_ne_nil hspelled)
    have htext : n.toList = first :: rest := htext
    rw [TokenKind.IsReadable, isIdentifier, htext] at h
    simp only [Bool.and_eq_true, List.all_eq_true] at h
    change c ∈ n.toList at hmem
    rw [htext] at hmem
    rcases List.mem_cons.1 hmem with rfl | hmem
    · exact hletter h.1.1
    · rcases Bool.or_eq_true_iff.1 (h.1.2 c hmem) with hc | hc
      · exact hletter hc
      · exact hdigit hc
  | number x =>
    obtain ⟨first, rest, htext, hfirst, hrest, -⟩ := h.digits
    rw [htext] at hmem
    rcases List.mem_cons.1 hmem with rfl | hmem
    · exact hdigit hfirst
    · rcases hrest c hmem with hc | rfl
      · exact hdigit hc
      · rfl
  | string literal =>
    obtain ⟨quote, htext, hquote, -⟩ := h
    change c ∈ literal.spelling.toList.getLast? at hc
    rw [htext, ← List.cons_append, List.getLast?_concat] at hc
    cases hc
    rcases hquote with ⟨rfl, -⟩ | ⟨rfl, -⟩ <;> rfl
  | keyword w => exact hletter (List.all_eq_true.1 (Lexer.keyword_text w).1 c hmem)
  | symbol s =>
    have hsigns : (s.text.toList.all fun c => !Text.isBlank c) = true := by cases s <;> decide
    exact Bool.not_eq_true' _ ▸ List.all_eq_true.1 hsigns c hmem
  | eof => exact h.elim

theorem trim_eq_self {s : String} (hhead : ∀ c ∈ s.toList.head?, Text.isBlank c = false)
    (hlast : ∀ c ∈ s.toList.getLast?, Text.isBlank c = false) : Text.trim s = s := by
  have hdrop {cs : List Char} (h : ∀ c ∈ cs.head?, Text.isBlank c = false) :
      cs.dropWhile Text.isBlank = cs := by
    cases cs with
    | nil => rfl
    | cons c cs => rw [List.dropWhile_cons_of_neg (by simp [h c rfl])]
  rw [Text.trim, hdrop hhead, hdrop (by rwa [List.head?_reverse]), List.reverse_reverse,
    String.ofList_toList]

namespace Expr.Respelled

variable {e e' : Expr}

theorem isWritable (h : e.Respelled e') : e'.IsWritable :=
  fun node hnode => (h.nodes node hnode).shaped

/-- What is written ends with a character that is no blank. -/
theorem exists_last (h : e.Respelled e') :
    ∃ before last, e.print.toList = before ++ [last] ∧ Text.isBlank last = false := by
  obtain ⟨pieces, kind, hends⟩ := h.ends
  have hfits := h.isWritable.fits
  rw [hends, fits_append_iff] at hfits
  have hkind : kind.IsReadable := hfits.2.1.isReadable
  have hprint : e.print.toList = (render pieces).toList ++ (Piece.text (.token kind)).toList := by
    rw [← h.print, Expr.print, hends, render, render, List.map_append, String.toList_join,
      String.toList_join, List.flatMap_append]
    simp
  have hne := Lexer.text_ne_nil hfits.2.1
  refine ⟨(render pieces).toList ++ (Piece.text (.token kind)).toList.dropLast, _, ?_,
    hkind.last_not_blank _ (List.getLast?_eq_some_getLast hne)⟩
  rw [hprint, List.append_assoc, List.dropLast_append_getLast hne]

/-- What is written is read as the other expression, also with a blank before it. -/
theorem parseExpr_blank (h : e.Respelled e') : parseExpr (" " ++ e.print) = .ok e' := by
  have hfits : Fits False none (blank :: e'.pieces) := fits_blank h.isWritable.fits
  have hclose : e'.Closes .eof := ⟨fun _ => rfl, rfl⟩
  have hseparated := e'.isSeparated_of_isFunction fun node hnode => (h.nodes node hnode).isFunction
  have hprint : " " ++ e.print = render (blank :: e'.pieces) := by
    rw [← h.print]
    exact String.toList_inj.1 (by rw [toList_render_cons, String.toList_append]; rfl)
  rw [hprint]
  obtain ⟨hnot, -⟩ | ⟨v, hv, hparse⟩ := whole_render Parser.expression hfits hfits.keeps hclose
    fun depth hdepth => h.isWritable.isWritten.isRead.expression (by rw [kinds_blank] at hdepth; omega)
  · exact absurd hseparated hnot
  · obtain rfl := hv.counts.same hseparated
    exact hparse

/-- Evaluating what is written gives what evaluating the expression gives. -/
theorem sourceNumber (h : e.Respelled e') :
    Eval.sourceNumber ("return " ++ e.print) = Eval.number e := by
  have htext : ("return " ++ e.print).toList = "return".toList ++ (" " ++ e.print).toList := by
    rw [String.toList_append, String.toList_append]
    rfl
  -- Nothing is trimmed: the text starts with a letter and ends with a token.
  have htrim : Text.trim ("return " ++ e.print) = "return " ++ e.print := by
    obtain ⟨before, last, hprint, hlast⟩ := h.exists_last
    refine trim_eq_self ?_ ?_
    · rw [htext]
      rintro c ⟨⟩
      rfl
    · rw [String.toList_append, hprint, ← List.append_assoc, List.getLast?_concat]
      rintro c ⟨⟩
      exact hlast
  have hlead : Text.dropLead? "return" ("return " ++ e.print) = some (" " ++ e.print) := by
    have hprefix : "return".toList.isPrefixOf ("return " ++ e.print).toList = true := by
      rw [htext, List.isPrefixOf_iff_prefix]
      exact List.prefix_append _ _
    rw [Text.dropLead?, if_pos hprefix, htext]
    exact congrArg some ((congrArg String.ofList List.drop_left).trans String.ofList_toList)
  rw [Eval.sourceNumber, htrim, hlead, Option.getD_some, h.parseExpr_blank]
  change Eval.number e' = Eval.number e
  rw [Eval.number, Eval.number, Eval.value, Eval.value, h.values, h.print]

end Expr.Respelled

end LuaUnpack.Lua
