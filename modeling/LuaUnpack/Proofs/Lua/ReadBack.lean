import LuaUnpack.Proofs.Lua.Joining

/-!
# Reading back whole trees

Every tree that has the shape of one that was read is read back as it is if its blocks are
separated, and with fewer statements, or not at all, if they are not (`Block.isRead`).

The proof goes by the number of statements, and among trees with as many of them by the tree.
Two statements that join are read as one that is no part of the tree, but then there is a
statement less.
-/

namespace LuaUnpack.Lua

open Piece LuaUnpack.Lua.Parser

namespace Block

variable {s t u : Stmt} {b : Block}

/-- No block goes on with a token with which nothing starts. -/
theorem exists_error_run_block {kind : TokenKind}
    (hkind : kind = .symbol .equal ∨ kind = .symbol .comma) (depth line : Nat) (rest : List Token) :
    ∃ error, (block depth).run (⟨kind, line⟩ :: rest) = .error error := by
  rcases hkind with rfl | rfl
  all_goals
    obtain _ | _ | _ | _ | _ | depth := depth
    all_goals exact ⟨_, rfl⟩

theorem reads_block_stop {β : Type} {kind : TokenKind} {kinds' : List TokenKind}
    {F : TokenKind → Prop} {P : β → Prop} {f : Block → Parser β} {depth : Nat}
    (hkind : kind = .symbol .equal ∨ kind = .symbol .comma) :
    Reads (block depth >>= f) (kind :: kinds') F False P pure := by
  intro tokens rest htokens _
  obtain ⟨⟨_, line⟩, tokens, rfl, rfl, -⟩ := List.map_eq_cons_iff.1 htokens
  obtain ⟨error, herror⟩ := exists_error_run_block hkind depth line (tokens ++ rest)
  refine .inl ⟨id, error, ?_⟩
  rw [StateT.run_bind, List.cons_append, herror]
  rfl

theorem IsWritten.cons (hs : s.IsWritten) (hreturn : s.isReturn = false) (hb : b.IsWritten) :
    IsWritten (s :: b) where
  returnsLast t ht := by
    cases b with
    | nil => cases ht
    | cons t' b =>
      rw [List.dropLast_cons_of_ne_nil (List.cons_ne_nil _ _)] at ht
      obtain rfl | ht := List.mem_cons.1 ht
      · exact hreturn
      · exact hb.returnsLast t ht
  nodes := Node.all_append_iff.2 ⟨hs, hb.nodes⟩

/-- A block of which the first two statements join. -/
theorem isRead_of_joined (hjoins : s.Joins t) (hu : s.JoinedAs t u) (hread : u.IsRead)
    (hblock : IsRead (u :: b)) : IsRead (s :: t :: b) := by
  have hseparated : ¬ AllSeparated (s :: t :: b) := fun h =>
    (allSeparated_cons_iff.1 h).1 t rfl hjoins
  intro indent level depth hdepth
  obtain ⟨rest, hstops, hkinds⟩ := hu.kinds
  have htokens : kinds (blockPieces indent level (s :: t :: b)) =
      kinds (u.pieces indent level) ++ rest ++ kinds (blockPieces indent level b) := by
    rw [blockPieces, blockPieces, kinds_append, kinds_append, ← List.append_assoc, hkinds]
  rw [htokens] at hdepth ⊢
  -- Either both statements are read as one, or the reader stops in the second one.
  obtain rfl | ⟨kind, more, rfl, hfollows, hkind⟩ := hstops
  · have hle := hu.count_le
    have hblock' := hblock indent level depth
    rw [blockPieces, kinds_append] at hblock'
    rw [List.append_nil] at hdepth ⊢
    refine (hblock' hdepth).mono (fun _ => id) (fun h => absurd h hseparated) fun v hv => ?_
    have hcount := hv.count_le
    have hlt : Mark.count v.marks < Mark.count (marks (s :: t :: b)) := by
      rw [count_marks_cons, count_marks_cons]
      rw [count_marks_cons] at hcount
      omega
    exact ⟨hlt.le, fun h => absurd h hseparated, fun h => absurd h hlt.ne⟩
  · obtain ⟨first, tokens, hfirst, hstarts, -⟩ := hu.writable.starts hu.isReturn indent level
    rw [List.append_assoc, List.length_append] at hdepth
    obtain ⟨depth, rfl⟩ : ∃ n, depth = n + 1 := ⟨depth - 1, by omega⟩
    suffices h : Reads (do
        let s ← statement depth
        return s :: (← block depth))
        (kinds (u.pieces indent level) ++ (kind :: more ++ kinds (blockPieces indent level b)))
        (endsBlock · = true) False (Rereads (s :: t :: b)) pure by
      rw [hfirst, List.cons_append] at h
      rw [List.append_assoc, hfirst, List.cons_append]
      exact (reads_block_of_starts hstarts h).mono (fun _ => id) hseparated fun _ => id
    refine (hread indent level depth ?_).bind False.elim hfollows fun v _ => reads_block_stop hkind
    rw [List.length_append, List.length_cons] at hdepth
    omega

end Block

/-! ## All trees -/

/-- Whether trees with fewer than a number of statements are read back. -/
structure ReadBelow (n : Nat) : Prop where
  stmt : ∀ s : Stmt, s.IsWritten → s.isReturn = false → Mark.count (Mark.ofStmt s) < n → s.IsRead
  block : ∀ b : Block, b.IsWritten → Mark.count b.marks < n → b.IsRead

section

variable {n : Nat}

mutual

theorem Expr.isRead_of_below (below : ReadBelow n) :
    ∀ e : Expr, e.IsWritten → Mark.count (Mark.ofExpr e) ≤ n → e.IsRead
  | .nil, h, _ => Expr.isRead_atom rfl rfl rfl ((Expr.isSeparated_above rfl).2 Node.all_nil)
  | .boolean b, h, _ =>
    Expr.isRead_atom rfl (by cases b <;> rfl) rfl ((Expr.isSeparated_above rfl).2 Node.all_nil)
  | .number x, h, _ => by
    have hx : numberPieces x = [.token (.number x)] :=
      (Node.all_above_iff.1 h).1.words _ List.mem_cons_self
    have hkinds : kinds (Expr.number x).pieces = [.number x] := by
      rw [Expr.pieces, hx, kinds_token, kinds_nil]
    exact Expr.isRead_atom hkinds rfl rfl ((Expr.isSeparated_above rfl).2 Node.all_nil)
  | .string l, _, _ => Expr.isRead_atom rfl rfl rfl ((Expr.isSeparated_above rfl).2 Node.all_nil)
  | .vararg, _, _ => Expr.isRead_atom rfl rfl rfl ((Expr.isSeparated_above rfl).2 Node.all_nil)
  | .name m, _, _ => Expr.isRead_name m
  | .member t k, h, hn => by
    obtain ⟨hnode, ht⟩ := Node.all_above_iff.1 h
    exact Expr.isRead_member (Expr.isRead_of_below below t ht hn) hnode.parts
  -- The marks of the parts are among those of the whole, so `below` can be used for each.
  | .index t k, h, hn => by
    obtain ⟨hnode, hparts⟩ := Node.all_above_iff.1 h
    obtain ⟨ht, hk⟩ := Node.all_append_iff.1 hparts
    rw [Mark.ofExpr, Mark.count_append] at hn
    exact Expr.isRead_index (Expr.isRead_of_below below t ht (by omega)) hnode.parts
      (Expr.isRead_of_below below k hk (by omega))
  | .call f args, h, hn => by
    obtain ⟨hnode, hparts⟩ := Node.all_above_iff.1 h
    obtain ⟨hf, hargs⟩ := Node.all_append_iff.1 hparts
    rw [Mark.ofExpr, Mark.count_append] at hn
    exact Expr.isRead_call (Expr.isRead_of_below below f hf (by omega)) hnode.parts
      (exprs_isRead_of_below below args hargs (by omega))
  | .methodCall o m args, h, hn => by
    obtain ⟨hnode, hparts⟩ := Node.all_above_iff.1 h
    obtain ⟨ho, hargs⟩ := Node.all_append_iff.1 hparts
    rw [Mark.ofExpr, Mark.count_append] at hn
    exact Expr.isRead_methodCall (Expr.isRead_of_below below o ho (by omega)) hnode.parts
      (exprs_isRead_of_below below args hargs (by omega))
  | .function ⟨ps, v, b⟩, h, hn => by
    obtain ⟨hnode, hb⟩ := Node.all_above_iff.1 h
    have hcount : Mark.count (Mark.ofStmts b) ≤ n := by simpa [Mark.ofExpr] using hn
    exact Expr.isRead_function
      (Block.isRead_of_below below b ⟨hnode.bodies b List.mem_cons_self, hb⟩ hcount)
  | .table fields, h, hn => by
    obtain ⟨hnode, hfields⟩ := Node.all_above_iff.1 h
    exact Expr.isRead_table (fields_isRead_of_below below fields hfields hn)
  | .binary op l r, h, hn => by
    obtain ⟨hl, hr⟩ := Node.all_append_iff.1 (Node.all_above_iff.1 h).2
    rw [Mark.ofExpr, Mark.count_append] at hn
    exact Expr.isRead_binary (Expr.isRead_of_below below l hl (by omega))
      (Expr.isRead_of_below below r hr (by omega))
  | .unary op e, h, hn =>
    Expr.isRead_unary (Expr.isRead_of_below below e (Node.all_above_iff.1 h).2 hn)
  | .paren e, h, hn => by
    obtain ⟨hnode, he⟩ := Node.all_above_iff.1 h
    exact Expr.isRead_paren (Expr.isRead_of_below below e he hn) hnode.parts

theorem exprs_isRead_of_below (below : ReadBelow n) :
    ∀ es : List Expr, Written (Node.ofExprs (fun _ => true) es) →
    Mark.count (Mark.ofExprs es) ≤ n → ∀ e ∈ es, e.IsRead
  | [], _, _ => fun _ he => absurd he List.not_mem_nil
  | e :: es, h, hn => by
    obtain ⟨he, hes⟩ := Node.all_append_iff.1 h
    rw [Mark.ofExprs, Mark.count_append] at hn
    exact List.forall_mem_cons.2 ⟨Expr.isRead_of_below below e he (by omega),
      exprs_isRead_of_below below es hes (by omega)⟩

theorem Field.isRead_of_below (below : ReadBelow n) :
    ∀ f : Field, Written (Node.ofField (fun _ => true) f) →
    Mark.count (Mark.ofField f) ≤ n → f.IsRead
  | .positional e, h, hn =>
    Field.isRead_positional (Expr.isRead_of_below below e h hn)
  | .named m e, h, hn => Field.isRead_named (Expr.isRead_of_below below e h hn)
  | .keyed k e, h, hn => by
    obtain ⟨hk, he⟩ := Node.all_append_iff.1 h
    rw [Mark.ofField, Mark.count_append] at hn
    exact Field.isRead_keyed (Expr.isRead_of_below below k hk (by omega))
      (Expr.isRead_of_below below e he (by omega))

theorem fields_isRead_of_below (below : ReadBelow n) :
    ∀ fs : List Field, Written (Node.ofFields (fun _ => true) fs) →
    Mark.count (Mark.ofFields fs) ≤ n → ∀ f ∈ fs, f.IsRead
  | [], _, _ => fun _ hf => absurd hf List.not_mem_nil
  | f :: fs, h, hn => by
    obtain ⟨hf, hfs⟩ := Node.all_append_iff.1 h
    rw [Mark.ofFields, Mark.count_append] at hn
    exact List.forall_mem_cons.2 ⟨Field.isRead_of_below below f hf (by omega),
      fields_isRead_of_below below fs hfs (by omega)⟩

theorem Stmt.isRead_of_below (below : ReadBelow n) : ∀ s : Stmt, s.IsWritten → s.isReturn = false →
    Mark.count (Mark.ofStmt s) ≤ n → s.IsRead
  | .localVars names values, h, _, hn => by
    obtain ⟨hnode, hvalues⟩ := Node.all_above_iff.1 h
    have hcount : Mark.count (Mark.ofExprs values) ≤ n := by simpa [Mark.ofStmt] using hn
    obtain ⟨m, names, rfl⟩ := List.exists_cons_of_ne_nil hnode.parts
    exact Stmt.isRead_localVars (exprs_isRead_of_below below values hvalues hcount)
  | .localFunction m ⟨ps, v, b⟩, h, _, hn => by
    obtain ⟨hnode, hb⟩ := Node.all_above_iff.1 h
    have hcount : Mark.count (Mark.ofStmts b) ≤ n := by simpa [Mark.ofStmt] using hn
    exact Stmt.isRead_localFunction
      (Block.isRead_of_below below b ⟨hnode.bodies b List.mem_cons_self, hb⟩ hcount)
  | .functionDecl root path method ⟨ps, v, b⟩, h, _, hn => by
    obtain ⟨hnode, hb⟩ := Node.all_above_iff.1 h
    have hcount : Mark.count (Mark.ofStmts b) ≤ n := by simpa [Mark.ofStmt] using hn
    refine Stmt.isRead_functionDecl ?_
      (Block.isRead_of_below below b ⟨hnode.bodies b List.mem_cons_self, hb⟩ hcount)
    intro hmethod
    cases method with
    | none => cases hmethod
    | some m => exact hnode.parts
  | .assign targets values, h, _, hn => by
    obtain ⟨hnode, hparts⟩ := Node.all_above_iff.1 h
    obtain ⟨htargets, hvalues⟩ := Node.all_append_iff.1 hparts
    obtain ⟨hne, hne', hassignable⟩ := hnode.parts
    rw [Mark.ofStmt, Mark.count_append] at hn
    have hreads := exprs_isRead_of_below below targets htargets (by omega)
    obtain ⟨t, ts, rfl⟩ := List.exists_cons_of_ne_nil hne
    exact Stmt.isRead_assign hreads hassignable hne'
      (exprs_isRead_of_below below values hvalues (by omega))
  | .call e, h, _, hn => by
    obtain ⟨hnode, he⟩ := Node.all_above_iff.1 h
    exact Stmt.isRead_call (Expr.isRead_of_below below e he hn) hnode.parts
  | .block b, h, _, hn => by
    obtain ⟨hnode, hb⟩ := Node.all_above_iff.1 h
    have hcount : Mark.count (Mark.ofStmts b) ≤ n := by simpa [Mark.ofStmt] using hn
    exact Stmt.isRead_block
      (Block.isRead_of_below below b ⟨hnode.bodies b List.mem_cons_self, hb⟩ hcount)
  | .whileLoop c b, h, _, hn => by
    obtain ⟨hnode, hparts⟩ := Node.all_above_iff.1 h
    obtain ⟨hc, hb⟩ := Node.all_append_iff.1 hparts
    rw [Mark.ofStmt, Mark.count_append, Mark.count_enclosed] at hn
    exact Stmt.isRead_whileLoop (Expr.isRead_of_below below c hc (by omega))
      (Block.isRead_of_below below b ⟨hnode.bodies b List.mem_cons_self, hb⟩
        (by rw [Block.marks]; omega))
  -- Body and condition share one scope, whose marks are counted together.
  | .repeatLoop b c, h, _, hn => by
    obtain ⟨hnode, hparts⟩ := Node.all_above_iff.1 h
    obtain ⟨hb, hc⟩ := Node.all_append_iff.1 hparts
    rw [Mark.ofStmt, Mark.count_enclosed, Mark.count_append] at hn
    exact Stmt.isRead_repeatLoop
      (Block.isRead_of_below below b ⟨hnode.bodies b List.mem_cons_self, hb⟩
        (by rw [Block.marks]; omega))
      (Expr.isRead_of_below below c hc (by omega))
  | .ifThen c b o, h, _, hn => by
    obtain ⟨hnode, hparts⟩ := Node.all_above_iff.1 h
    obtain ⟨hcb, ho⟩ := Node.all_append_iff.1 hparts
    obtain ⟨hc, hb⟩ := Node.all_append_iff.1 hcb
    rw [Mark.ofStmt, Mark.count_append, Mark.count_append, Mark.count_enclosed] at hn
    obtain ⟨hbody, hbodies⟩ := List.forall_mem_cons.1 hnode.bodies
    exact Stmt.isRead_ifThen (Expr.isRead_of_below below c hc (by omega))
      (Block.isRead_of_below below b ⟨hbody, hb⟩ (by rw [Block.marks]; omega))
      (Else.isRead_of_below below o ho hbodies (by omega))
  | .numericFor m start limit none b, h, _, hn => by
    obtain ⟨hnode, hparts⟩ := Node.all_above_iff.1 h
    obtain ⟨hexprs, hb⟩ := Node.all_append_iff.1 hparts
    obtain ⟨hstart, hlimit⟩ := Node.all_append_iff.1 hexprs
    rw [Mark.ofStmt, Mark.count_append, Mark.count_append, Mark.count_enclosed,
      Mark.count_cons_declare] at hn
    exact Stmt.isRead_numericFor (Expr.isRead_of_below below start hstart (by omega))
      (Expr.isRead_of_below below limit hlimit (by omega))
      (Block.isRead_of_below below b ⟨hnode.bodies b List.mem_cons_self, hb⟩
        (by rw [Block.marks]; omega))
  | .numericFor m start limit (some step) b, h, _, hn => by
    obtain ⟨hnode, hparts⟩ := Node.all_above_iff.1 h
    obtain ⟨hexprs, hb⟩ := Node.all_append_iff.1 hparts
    obtain ⟨hexprs, hstep⟩ := Node.all_append_iff.1 hexprs
    obtain ⟨hstart, hlimit⟩ := Node.all_append_iff.1 hexprs
    rw [Mark.ofStmt, Mark.count_append, Mark.count_append, Mark.count_append, Mark.count_enclosed,
      Mark.count_cons_declare] at hn
    exact Stmt.isRead_numericFor_step (Expr.isRead_of_below below start hstart (by omega))
      (Expr.isRead_of_below below limit hlimit (by omega))
      (Expr.isRead_of_below below step hstep (by omega))
      (Block.isRead_of_below below b ⟨hnode.bodies b List.mem_cons_self, hb⟩
        (by rw [Block.marks]; omega))
  | .genericFor names exprs b, h, _, hn => by
    obtain ⟨hnode, hparts⟩ := Node.all_above_iff.1 h
    obtain ⟨hexprs, hb⟩ := Node.all_append_iff.1 hparts
    obtain ⟨hne, hne'⟩ := hnode.parts
    rw [Mark.ofStmt, Mark.count_append, Mark.count_enclosed, Mark.count_append,
      Mark.count_declares] at hn
    have hbody := hnode.bodies b List.mem_cons_self
    obtain ⟨m, names, rfl⟩ := List.exists_cons_of_ne_nil hne
    exact Stmt.isRead_genericFor hne' (exprs_isRead_of_below below exprs hexprs (by omega))
      (Block.isRead_of_below below b ⟨hbody, hb⟩ (by rw [Block.marks]; omega))
  | .exit, _, _, _ => Stmt.isRead_exit
  | .goto m, _, _, _ => Stmt.isRead_goto m
  | .label m, _, _, _ => Stmt.isRead_label m

theorem Else.isRead_of_below (below : ReadBelow n) :
    ∀ o : Else, Written (Node.ofElse (fun _ => true) o) →
    (∀ body ∈ o.bodies, body.ReturnsLast) → Mark.count (Mark.ofElse o) ≤ n → o.IsRead
  | .done, _, _, _ => Else.isRead_done
  | .block b, h, hbodies, hn => by
    have hcount : Mark.count (Mark.ofStmts b) ≤ n := by simpa [Mark.ofElse] using hn
    exact Else.isRead_block (Block.isRead_of_below below b ⟨hbodies b List.mem_cons_self, h⟩ hcount)
  | .elseIf c b o, h, hbodies, hn => by
    obtain ⟨hcb, ho⟩ := Node.all_append_iff.1 h
    obtain ⟨hc, hb⟩ := Node.all_append_iff.1 hcb
    rw [Mark.ofElse, Mark.count_append, Mark.count_append, Mark.count_enclosed] at hn
    obtain ⟨hbody, hbodies⟩ := List.forall_mem_cons.1 hbodies
    exact Else.isRead_elseIf (Expr.isRead_of_below below c hc (by omega))
      (Block.isRead_of_below below b ⟨hbody, hb⟩ (by rw [Block.marks]; omega))
      (Else.isRead_of_below below o ho hbodies (by omega))

theorem Block.isRead_of_below (below : ReadBelow n) :
    ∀ b : List Stmt, Block.IsWritten b → Mark.count (Block.marks b) ≤ n → Block.IsRead b
  | [], _, _ => Block.isRead_nil
  | s :: b, h, hn => by
    rw [Block.count_marks_cons] at hn
    cases hreturn : s.isReturn with
    | true =>
      obtain rfl : b = [] := by
        by_contra hne
        rw [h.isReturn hne] at hreturn
        cases hreturn
      cases s with
      | ret values =>
        have hvalues := (Node.all_above_iff.1 h.head).2
        exact Block.isRead_return
          (exprs_isRead_of_below below values hvalues (by rw [Mark.ofStmt] at hn; omega))
      | _ => cases hreturn
    | false =>
      have hs := Stmt.isRead_of_below below s h.head hreturn (by omega)
      have hb := Block.isRead_of_below below b h.tail (by omega)
      -- If the first two statements join, the joined one has fewer marks than both together.
      by_cases hjoins : ∃ t ∈ b.head?, s.Joins t
      · obtain ⟨t, ht, hjoins⟩ := hjoins
        obtain ⟨b, rfl⟩ : ∃ b', b = t :: b' := ⟨b.tail, List.eq_cons_of_mem_head? ht⟩
        obtain ⟨u, hu⟩ := hjoins.joined h.head h.tail.head
        have hle := hu.count_le
        rw [Block.count_marks_cons] at hn
        exact Block.isRead_of_joined hjoins hu (below.stmt u hu.writable hu.isReturn (by omega))
          (below.block (u :: b) (.cons hu.writable hu.isReturn h.tail.tail)
            (by rw [Block.count_marks_cons]; omega))
      · exact Block.isRead_cons h hreturn hs hb fun t ht hjoin => hjoins ⟨t, ht, hjoin⟩

end

end

theorem readBelow (n : Nat) : ReadBelow n := by
  induction n with
  | zero =>
    exact ⟨fun _ _ _ h => absurd h (Nat.not_lt_zero _), fun _ _ h => absurd h (Nat.not_lt_zero _)⟩
  | succ n ih =>
    exact ⟨fun s hs hreturn hn => Stmt.isRead_of_below ih s hs hreturn (Nat.le_of_lt_succ hn),
      fun b hb hn => Block.isRead_of_below ih b hb (Nat.le_of_lt_succ hn)⟩

theorem Expr.IsWritten.isRead {e : Expr} (h : e.IsWritten) : e.IsRead :=
  Expr.isRead_of_below (readBelow e.count) e h (Nat.le_refl _)

theorem Block.IsWritten.isRead {b : Block} (h : b.IsWritten) : b.IsRead :=
  Block.isRead_of_below (readBelow (Mark.count b.marks)) b h (Nat.le_refl _)

end LuaUnpack.Lua
