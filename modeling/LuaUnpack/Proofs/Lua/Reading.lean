import LuaUnpack.Lua.Parser

/-!
# Readers on known tokens

What a reader does on tokens of which the kinds are known (`Reads`). It either fails, which
must not happen if a condition holds, or it goes on after these tokens as another reader,
with a value that has a property. Readers that are put together by `do` are followed step by
step: there is one rule for each way to look at the next token and to go past it, and one for
a reader within another (`Reads.bind`).

What may follow is a condition on the first kind after the known ones.
-/

namespace LuaUnpack.Lua.Parser

variable {α β γ : Type}

/-- Whether a reader goes on as another one after tokens of some kinds, with a value that has
    a property. It may fail only if the condition `S` does not hold. -/
def Reads (act : Parser β) (kinds : List TokenKind) (F : TokenKind → Prop) (S : Prop)
    (P : α → Prop) (next : α → Parser β) : Prop :=
  ∀ tokens rest, tokens.map Token.kind = kinds → F (head rest).kind →
    (¬ S ∧ ∃ error, act.run (tokens ++ rest) = .error error) ∨
      ∃ a, P a ∧ act.run (tokens ++ rest) = (next a).run rest

/-- Whether a condition holds for the first of some kinds, or for what follows them if there
    are none. -/
def FirstIs (G F : TokenKind → Prop) : List TokenKind → Prop
  | [] => ∀ kind, F kind → G kind
  | kind :: _ => G kind

section

variable {act : Parser β} {kinds kinds₁ kinds₂ : List TokenKind} {kind : TokenKind}
  {F F₁ G : TokenKind → Prop} {S S₁ : Prop} {P : α → Prop} {P₁ : γ → Prop} {next : α → Parser β}

theorem FirstIs.of_all (h : ∀ kind, G kind) : FirstIs G F kinds := by
  cases kinds with
  | nil => exact fun kind _ => h kind
  | cons kind _ => exact h kind

theorem FirstIs.imp {G' : TokenKind → Prop} (h : FirstIs G F kinds)
    (himp : ∀ kind, G kind → G' kind) : FirstIs G' F kinds := by
  cases kinds with
  | nil => exact fun kind hkind => himp kind (h kind hkind)
  | cons kind _ => exact himp kind h

theorem FirstIs.of_ne {other : TokenKind} (h : kind ≠ other) :
    FirstIs (· ≠ other) F (kind :: kinds) := h

theorem FirstIs.head {tokens rest : List Token} (h : FirstIs G F (tokens.map Token.kind))
    (hrest : F (head rest).kind) : G (head (tokens ++ rest)).kind := by
  cases tokens with
  | nil => exact h _ hrest
  | cons token tokens => exact h

theorem reads_next {a : α} (h : P a) : Reads (next a) [] F S P next := by
  intro tokens rest htokens _
  obtain rfl := List.map_eq_nil_iff.1 htokens
  exact .inr ⟨a, h, rfl⟩

theorem Reads.mono {P' : α → Prop} {F' : TokenKind → Prop} {S' : Prop}
    (h : Reads act kinds F S P next) (hF : ∀ kind, F' kind → F kind) (hS : S' → S)
    (hP : ∀ a, P a → P' a) : Reads act kinds F' S' P' next := by
  intro tokens rest htokens hrest
  obtain ⟨hS', herror⟩ | ⟨a, ha, hrun⟩ := h tokens rest htokens (hF _ hrest)
  · exact .inl ⟨fun h => hS' (hS h), herror⟩
  · exact .inr ⟨a, hP a ha, hrun⟩

/-- A reader goes on as one that goes on as a third. -/
theorem Reads.trans {middle : γ → Parser β} (h₁ : Reads act kinds₁ F₁ S₁ P₁ middle)
    (hS : S → S₁) (hF : FirstIs F₁ F kinds₂)
    (h₂ : ∀ a, P₁ a → Reads (middle a) kinds₂ F S P next) :
    Reads act (kinds₁ ++ kinds₂) F S P next := by
  intro tokens rest htokens hrest
  obtain ⟨tokens₁, tokens₂, rfl, rfl, rfl⟩ := List.map_eq_append_iff.1 htokens
  rw [List.append_assoc]
  obtain ⟨hS₁, herror⟩ | ⟨a, ha, hrun⟩ := h₁ tokens₁ (tokens₂ ++ rest) rfl (hF.head hrest)
  · exact .inl ⟨fun h => hS₁ (hS h), herror⟩
  · rw [hrun]
    exact h₂ a ha tokens₂ rest rfl hrest

theorem Reads.trans_nil {middle : γ → Parser β} (h₁ : Reads act kinds F₁ S₁ P₁ middle)
    (hS : S → S₁) (hF : ∀ kind, F kind → F₁ kind)
    (h₂ : ∀ a, P₁ a → Reads (middle a) [] F S P next) : Reads act kinds F S P next := by
  rw [← List.append_nil kinds]
  exact h₁.trans hS hF h₂

/-- A reader within another one. -/
theorem Reads.bind {inner : Parser γ} {f : γ → Parser β} (h₁ : Reads inner kinds₁ F₁ S₁ P₁ pure)
    (hS : S → S₁) (hF : FirstIs F₁ F kinds₂)
    (h₂ : ∀ a, P₁ a → Reads (f a) kinds₂ F S P next) :
    Reads (inner >>= f) (kinds₁ ++ kinds₂) F S P next := by
  suffices hfirst : Reads (inner >>= f) kinds₁ F₁ S₁ P₁ f from hfirst.trans hS hF h₂
  intro tokens rest htokens hrest
  obtain ⟨hS₁, error, herror⟩ | ⟨a, ha, hrun⟩ := h₁ tokens rest htokens hrest
  · refine .inl ⟨hS₁, error, ?_⟩
    rw [StateT.run_bind, herror]
    rfl
  · refine .inr ⟨a, ha, ?_⟩
    rw [StateT.run_bind, hrun]
    rfl

theorem Reads.bind_nil {inner : Parser γ} {f : γ → Parser β}
    (h₁ : Reads inner kinds F₁ S₁ P₁ pure) (hS : S → S₁) (hF : ∀ kind, F kind → F₁ kind)
    (h₂ : ∀ a, P₁ a → Reads (f a) [] F S P next) : Reads (inner >>= f) kinds F S P next := by
  rw [← List.append_nil kinds]
  exact h₁.bind hS hF h₂

/-! ## Single tokens -/

theorem reads_peek {f : Token → Parser β}
    (h : ∀ line, Reads (f ⟨kind, line⟩) (kind :: kinds) F S P next) :
    Reads (peek >>= f) (kind :: kinds) F S P next := by
  intro tokens rest htokens hrest
  obtain ⟨⟨_, line⟩, _, rfl, rfl, _⟩ := List.map_eq_cons_iff.1 htokens
  exact h line _ rest htokens hrest

theorem reads_peek_nil {f : Token → Parser β}
    (h : ∀ token, F token.kind → Reads (f token) [] F S P next) :
    Reads (peek >>= f) [] F S P next := by
  intro tokens rest htokens hrest
  obtain rfl := List.map_eq_nil_iff.1 htokens
  exact h _ hrest [] rest rfl hrest

/-- A reader that looks only for something about the next token. -/
theorem reads_peek_first {f : Token → Parser β} (hfirst : FirstIs G F kinds)
    (h : ∀ token, G token.kind → Reads (f token) kinds F S P next) :
    Reads (peek >>= f) kinds F S P next := by
  intro tokens rest htokens hrest
  subst htokens
  exact h _ (hfirst.head hrest) tokens rest rfl hrest

/-- A reader that looks at all tokens that are left. -/
theorem reads_get {f : List Token → Parser β}
    (h : ∀ tokens rest, tokens.map Token.kind = kinds → F (head rest).kind →
      Reads (f (tokens ++ rest)) kinds F S P next) : Reads (get >>= f) kinds F S P next :=
  fun tokens rest htokens hrest => h tokens rest htokens hrest tokens rest htokens hrest

theorem reads_advance {f : Unit → Parser β} (h : Reads (f ()) kinds F S P next) :
    Reads (advance >>= f) (kind :: kinds) F S P next := by
  intro tokens rest htokens hrest
  obtain ⟨token, tokens, rfl, -, hkinds⟩ := List.map_eq_cons_iff.1 htokens
  exact h tokens rest hkinds hrest

theorem run_accept_of_eq {tokens : List Token} (h : (head tokens).kind = kind) :
    (accept kind).run tokens = .ok (true, tokens.tail) := by
  change (if (head tokens).kind = kind then _ else _ : Parser Bool).run tokens = _
  rw [if_pos h]
  rfl

theorem run_accept_of_ne {tokens : List Token} (h : (head tokens).kind ≠ kind) :
    (accept kind).run tokens = .ok (false, tokens) := by
  change (if (head tokens).kind = kind then _ else _ : Parser Bool).run tokens = _
  rw [if_neg h]
  rfl

theorem reads_accept {f : Bool → Parser β} (h : Reads (f true) kinds F S P next) :
    Reads (accept kind >>= f) (kind :: kinds) F S P next := by
  intro tokens rest htokens hrest
  obtain ⟨token, tokens, rfl, hkind, hkinds⟩ := List.map_eq_cons_iff.1 htokens
  have haccept : (accept kind).run (token :: (tokens ++ rest)) = .ok (true, tokens ++ rest) :=
    run_accept_of_eq hkind
  rw [StateT.run_bind, List.cons_append, haccept]
  exact h tokens rest hkinds hrest

/-- The next token is another one. -/
theorem reads_accept_not {f : Bool → Parser β} (hkind : FirstIs (· ≠ kind) F kinds)
    (h : Reads (f false) kinds F S P next) : Reads (accept kind >>= f) kinds F S P next := by
  intro tokens rest htokens hrest
  subst htokens
  rw [StateT.run_bind, run_accept_of_ne (hkind.head hrest)]
  exact h tokens rest rfl hrest

theorem reads_accept_then {yes no : Parser β} (h : Reads yes kinds F S P next) :
    Reads (accept kind >>= fun taken => if taken = true then yes else no) (kind :: kinds) F S P
      next :=
  reads_accept h

theorem reads_accept_else {yes no : Parser β} (hkind : FirstIs (· ≠ kind) F kinds)
    (h : Reads no kinds F S P next) :
    Reads (accept kind >>= fun taken => if taken = true then yes else no) kinds F S P next :=
  reads_accept_not hkind h

theorem reads_expect {what : String} {f : Unit → Parser β} (h : Reads (f ()) kinds F S P next) :
    Reads (expect kind what >>= f) (kind :: kinds) F S P next := by
  rw [expect, bind_assoc]
  exact reads_accept h

theorem reads_expectSymbol {sign : Symbol} {f : Unit → Parser β}
    (h : Reads (f ()) kinds F S P next) :
    Reads (expectSymbol sign >>= f) (.symbol sign :: kinds) F S P next :=
  reads_expect h

theorem reads_expectKeyword {word : Keyword} {f : Unit → Parser β}
    (h : Reads (f ()) kinds F S P next) :
    Reads (expectKeyword word >>= f) (.keyword word :: kinds) F S P next :=
  reads_expect h

theorem reads_expectName {name : String} {f : String → Parser β}
    (h : Reads (f name) kinds F S P next) :
    Reads (expectName >>= f) (.name name :: kinds) F S P next := by
  rw [expectName, bind_assoc]
  refine reads_peek fun line => ?_
  change Reads ((advance >>= fun _ => pure name) >>= f) _ F S P next
  rw [bind_assoc]
  exact reads_advance (by rwa [pure_bind])

end

end LuaUnpack.Lua.Parser
