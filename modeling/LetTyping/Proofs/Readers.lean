import LetTyping.Proofs.Ending
import LetTyping.Proofs.Grammar

/-!
# What is read follows the grammar

When a reader succeeds, the tokens that it consumed are a phrase of the grammar, in the reading that
continues calls, and the tree is the tree of the phrase.

## Main definitions

* `Reader.ReadsExprs` — a reader reads expressions of the grammar.

## Main results

* `Reader.bind_ok`, `Reader.accept_bind_ok` — what is known when a step has succeeded.
* `Reader.list_ok`, `Reader.statements_ok`, `Reader.calls_ok` — the loops.
* `Reader.expr_ok`, `Reader.program_ok` — **expressions and programs.**
-/

namespace LetTyping

namespace Reader

variable {α β : Type} {s s' : List (Located Token)} {stop : Span} {bound : Nat}
variable {r : β × List (Located Token)}

/-! ### Steps -/

theorem bind_ok {x : Reader α} {f : α → Reader β} (h : (x >>= f) s = .ok r) :
    ∃ a s', x s = .ok (a, s') ∧ f a s' = .ok r := by
  change (x s >>= fun p => f p.1 p.2) = .ok r at h
  cases hx : x s with
  | error e =>
    rw [hx] at h
    cases h
  | ok p =>
    rw [hx] at h
    exact ⟨p.1, p.2, rfl, h⟩

theorem pure_ok {a b : α} (h : (pure a : Reader α) s = .ok (b, s')) : b = a ∧ s' = s := by
  cases h
  exact ⟨rfl, rfl⟩

/-- What was to be read plays no part for the fault. -/
theorem unexpected_eq_error (stop : Span) (expected : String) (s : List (Located Token)) :
    ∃ fault, ∀ α : Type, (unexpected stop expected : Reader α) s = .error fault := by
  cases s with
  | nil => exact ⟨_, fun _ => rfl⟩
  | cons t s =>
    by_cases ht : t.val = .eof
    · exact ⟨_, fun _ => if_pos ht⟩
    · exact ⟨_, fun _ => if_neg ht⟩

theorem unexpected_ne_ok {expected : String} : unexpected stop expected s ≠ .ok r := by
  obtain ⟨fault, hfault⟩ := unexpected_eq_error stop expected s
  rw [hfault]
  exact fun h => nomatch h

/-- The token is accepted, or there is another token and nothing happens. -/
theorem accept_cases {token : Token} {found : Option Span} (h : accept token s = .ok (found, s')) :
    (∃ span, found = some span ∧ s = ⟨token, span⟩ :: s') ∨
      (found = none ∧ s' = s ∧ (kinds s).head? ≠ some token) := by
  cases s with
  | nil =>
    cases h
    exact .inr ⟨rfl, rfl, by simp⟩
  | cons t rest =>
    by_cases ht : t.val = token
    · simp only [accept, ht, if_true] at h
      cases h
      exact .inl ⟨t.span, rfl, by rw [← ht]⟩
    · simp only [accept, ht, if_false] at h
      cases h
      exact .inr ⟨rfl, rfl, by simp [ht]⟩

theorem accept_ok {token : Token} {found : Option Span} (h : accept token s = .ok (found, s')) :
    (∃ span, found = some span ∧ kinds s = token :: kinds s') ∨
      (found = none ∧ s' = s ∧ (kinds s).head? ≠ some token) := by
  rcases accept_cases h with ⟨span, rfl, rfl⟩ | hnone
  · exact .inl ⟨span, rfl, rfl⟩
  · exact .inr hnone

/-- The token is accepted and what is done then succeeds, or there is another token and what is
done otherwise succeeds. -/
theorem accept_bind_ok {token : Token} {found : Span → Reader β} {other : Reader β}
    (h : (do match ← accept token with
      | some span => found span
      | none => other : Reader β) s = .ok r) :
    (∃ span s', kinds s = token :: kinds s' ∧ found span s' = .ok r) ∨
      ((kinds s).head? ≠ some token ∧ other s = .ok r) := by
  obtain ⟨_, s₁, haccept, hcont⟩ := bind_ok h
  rcases accept_ok haccept with ⟨span, rfl, hs⟩ | ⟨rfl, rfl, hs⟩
  · exact .inl ⟨span, s₁, hs, hcont⟩
  · exact .inr ⟨hs, hcont⟩

theorem expect_ok {token : Token} {span : Span} (h : expect stop token s = .ok (span, s')) :
    kinds s = token :: kinds s' := by
  unfold expect at h
  rcases accept_bind_ok h with ⟨span', s₁, hs, h⟩ | ⟨-, h⟩
  · rw [hs, (pure_ok h).2]
  · exact absurd h unexpected_ne_ok

theorem ident_ok {name : String} (h : ident stop s = .ok (name, s')) :
    kinds s = .ident name :: kinds s' := by
  unfold ident at h
  split at h
  · simp only [Except.ok.injEq, Prod.mk.injEq] at h
    simp [h.1, h.2]
  · exact absurd h unexpected_ne_ok

theorem params_ok {names : List String} (h : params stop bound s = .ok (names, s')) :
    names ≠ [] ∧ kinds s = paramTokens names ++ .closeParen :: kinds s' := by
  induction bound generalizing s names with
  | zero => exact absurd h unexpected_ne_ok
  | succ bound ih =>
    unfold params at h
    obtain ⟨name, s₁, hname, h⟩ := bind_ok h
    rw [ident_ok hname]
    rcases accept_bind_ok h with ⟨_, s₂, hs₂, h⟩ | ⟨-, h⟩
    -- a comma, and so at least one more name
    · obtain ⟨names', s₃, hnames, h⟩ := bind_ok h
      obtain ⟨rfl, rfl⟩ := pure_ok h
      obtain ⟨hne, hs₃⟩ := ih hnames
      obtain ⟨name', names', rfl⟩ := List.exists_cons_of_ne_nil hne
      simp [hs₂, hs₃, paramTokens]
    · obtain ⟨_, s₂, hclose, h⟩ := bind_ok h
      obtain ⟨rfl, rfl⟩ := pure_ok h
      simp [expect_ok hclose, paramTokens]

/-! ### What is read follows the grammar -/

/-- The reader reads expressions of the grammar. -/
def ReadsExprs (inner : Reader (Tree Span)) : Prop :=
  ∀ s t s', inner s = .ok (t, s') → Generates NoCall (.expr t.shape) (kinds s) (kinds s')

section Forms

variable {inner : Reader (Tree Span)} (hinner : ReadsExprs inner)

include hinner

theorem list_ok {close : Token} {es : List (Tree Span)} {closing : Span}
    (h : list stop inner close bound s = .ok ((es, closing), s')) :
    Generates NoCall (.list (es.map Tree.shape)) (kinds s) (close :: kinds s') := by
  induction bound generalizing s es with
  | zero => exact absurd h unexpected_ne_ok
  | succ bound ih =>
    unfold list at h
    rcases accept_bind_ok h with ⟨_, s₁, hs₁, h⟩ | ⟨-, h⟩
    -- the list has ended
    · obtain ⟨hes, rfl⟩ := pure_ok h
      cases hes
      rw [hs₁]
      exact .noItem
    · obtain ⟨e, s₁, he, h⟩ := bind_ok h
      have hexpr := hinner _ _ _ he
      -- a comma goes on with the list, perhaps only to its end
      rcases accept_bind_ok h with ⟨_, s₂, hs₂, h⟩ | ⟨-, h⟩
      · obtain ⟨⟨tail, _⟩, s₃, htail, h⟩ := bind_ok h
        obtain ⟨hes, rfl⟩ := pure_ok h
        cases hes
        exact .item (hs₂ ▸ hexpr) (ih htail)
      · obtain ⟨_, s₂, hclose, h⟩ := bind_ok h
        obtain ⟨hes, rfl⟩ := pure_ok h
        cases hes
        exact .lastItem (expect_ok hclose ▸ hexpr)

theorem parenthesized_ok {first : Nat} {t : Tree Span}
    (h : parenthesized stop inner bound first s = .ok (t, s')) :
    Generates NoCall (.primary t.shape) (.openParen :: kinds s) (kinds s') := by
  unfold parenthesized at h
  rcases accept_bind_ok h with ⟨_, s₁, hs₁, h⟩ | ⟨-, h⟩
  · obtain ⟨rfl, rfl⟩ := pure_ok h
    simpa [hs₁] using Generates.unit
  · obtain ⟨e, s₁, he, h⟩ := bind_ok h
    have hexpr := hinner _ _ _ he
    -- the parenthesis closes, or a comma makes it a tuple
    rcases accept_bind_ok h with ⟨_, s₂, hs₂, h⟩ | ⟨-, h⟩
    · obtain ⟨rfl, rfl⟩ := pure_ok h
      exact .group (hs₂ ▸ hexpr)
    · obtain ⟨_, s₂, hcomma, h⟩ := bind_ok h
      obtain ⟨⟨tail, _⟩, s₃, htail, h⟩ := bind_ok h
      obtain ⟨rfl, rfl⟩ := pure_ok h
      rw [Tree.shape_tuple, List.map_cons]
      exact .tuple (expect_ok hcomma ▸ hexpr) (list_ok hinner htail)

theorem array_ok {first : Nat} {t : Tree Span} (h : array stop inner bound first s = .ok (t, s')) :
    Generates NoCall (.primary t.shape) (.openBracket :: kinds s) (kinds s') := by
  unfold array at h
  obtain ⟨⟨es, _⟩, s₁, hes, h⟩ := bind_ok h
  obtain ⟨rfl, rfl⟩ := pure_ok h
  rw [Tree.shape_array]
  exact .array (list_ok hinner hes)

theorem function_ok {first : Nat} {t : Tree Span}
    (h : function stop inner bound first s = .ok (t, s')) :
    Generates NoCall (.primary t.shape) (.fnWord :: kinds s) (kinds s') := by
  unfold function at h
  obtain ⟨_, s₁, hopen, h⟩ := bind_ok h
  rw [expect_ok hopen]
  -- the body follows the parameters, of which there may be none
  have hbody : ∀ {names s₂}, (do
      let body ← inner
      return Tree.fn ⟨first, body.label.stop⟩ names body : Reader (Tree Span)) s₂ = .ok (t, s') →
      kinds s₁ = paramTokens names ++ .closeParen :: kinds s₂ →
      Generates NoCall (.primary t.shape) (.fnWord :: .openParen :: kinds s₁) (kinds s') := by
    intro names s₂ h hs₂
    obtain ⟨body, s₃, hbody, h⟩ := bind_ok h
    obtain ⟨rfl, rfl⟩ := pure_ok h
    rw [hs₂, Tree.shape_fn]
    exact .fn (hinner _ _ _ hbody)
  rcases accept_bind_ok h with ⟨_, s₂, hs₂, h⟩ | ⟨-, h⟩
  · obtain ⟨names, s₃, hnames, h⟩ := bind_ok h
    obtain ⟨rfl, rfl⟩ := pure_ok hnames
    exact hbody h hs₂
  · obtain ⟨names, s₃, hnames, h⟩ := bind_ok h
    exact hbody h (params_ok hnames).2

theorem bareStatement_ok {t : Tree Span} (h : bareStatement stop inner s = .ok (t, s')) :
    Generates NoCall (.bare t.shape) (kinds s) (kinds s') := by
  unfold bareStatement at h
  -- the first token decides, and for an assignment the second one
  split at h
  · obtain ⟨name, s₁, hname, h⟩ := bind_ok h
    obtain ⟨_, s₂, hequals, h⟩ := bind_ok h
    obtain ⟨value, s₃, hvalue, h⟩ := bind_ok h
    obtain ⟨rfl, rfl⟩ := pure_ok h
    rw [kinds_cons, ident_ok hname, expect_ok hequals, Tree.shape_decl]
    exact .decl (hinner _ _ _ hvalue)
  · obtain ⟨value, s₁, hvalue, h⟩ := bind_ok h
    obtain ⟨rfl, rfl⟩ := pure_ok h
    rw [kinds_cons, Tree.shape_ret]
    exact .ret (hinner _ _ _ hvalue)
  · obtain ⟨value, s₁, hvalue, h⟩ := bind_ok h
    obtain ⟨rfl, rfl⟩ := pure_ok h
    rw [kinds_cons, kinds_cons, Tree.shape_assign]
    exact .assign (hinner _ _ _ hvalue)
  · exact .value (hinner _ _ _ h)

theorem statement_ok {t : Tree Span} (h : statement stop inner s = .ok (t, s')) :
    Generates NoCall (.stmt t.shape) (kinds s) (kinds s') := by
  unfold statement at h
  obtain ⟨stmt, s₁, hstmt, h⟩ := bind_ok h
  have hbare := bareStatement_ok hinner hstmt
  obtain ⟨_, s₂, hsemicolon, h⟩ := bind_ok h
  obtain ⟨rfl, rfl⟩ := pure_ok h
  rcases accept_ok hsemicolon with ⟨_, -, hs₁⟩ | ⟨-, rfl, -⟩
  · exact .ended (hs₁ ▸ hbare)
  · exact .plain hbare

/-- Statements are read up to where they end. -/
theorem statements_ok {inBlock : Bool} {ss : List (Tree Span)}
    (h : statements stop inner inBlock bound s = .ok (ss, s')) :
    Generates NoCall (.stmts (ss.map Tree.shape)) (kinds s) (kinds s') ∧
      statementsEnd inBlock s' = true := by
  induction bound generalizing s ss with
  | zero => exact absurd h unexpected_ne_ok
  | succ bound ih =>
    unfold statements at h
    obtain ⟨_, _, hget, h⟩ := bind_ok h
    cases hget
    by_cases hend : statementsEnd inBlock s = true
    · rw [if_pos hend] at h
      obtain ⟨rfl, rfl⟩ := pure_ok h
      exact ⟨.noStmt, hend⟩
    · rw [if_neg hend] at h
      obtain ⟨stmt, s₁, hstmt, h⟩ := bind_ok h
      obtain ⟨tail, s₂, htail, h⟩ := bind_ok h
      obtain ⟨rfl, rfl⟩ := pure_ok h
      obtain ⟨hss, hfinal⟩ := ih htail
      exact ⟨.next (statement_ok hinner hstmt) hss, hfinal⟩

theorem block_ok {first : Nat} {t : Tree Span} (h : block stop inner bound first s = .ok (t, s')) :
    Generates NoCall (.primary t.shape) (.openBrace :: kinds s) (kinds s') := by
  unfold block at h
  obtain ⟨ss, s₁, hss, h⟩ := bind_ok h
  obtain ⟨_, s₂, hclose, h⟩ := bind_ok h
  obtain ⟨rfl, rfl⟩ := pure_ok h
  rw [Tree.shape_block]
  exact .block (expect_ok hclose ▸ (statements_ok hinner hss).1)

theorem primary_ok {t : Tree Span} (h : primary stop inner bound s = .ok (t, s')) :
    Generates NoCall (.primary t.shape) (kinds s) (kinds s') := by
  unfold primary at h
  split at h
  · cases h
    simpa using Generates.int
  · cases h
    simpa using Generates.var
  · exact parenthesized_ok hinner h
  · exact array_ok hinner h
  · exact function_ok hinner h
  · exact block_ok hinner h
  · exact absurd h unexpected_ne_ok

theorem calls_ok {first : Nat} {head t : Tree Span}
    (h : calls stop inner first head bound s = .ok (t, s')) :
    Generates NoCall (.calls head.shape t.shape) (kinds s) (kinds s') := by
  induction bound generalizing s head with
  | zero => exact absurd h unexpected_ne_ok
  | succ bound ih =>
    unfold calls at h
    obtain ⟨_, s₁, haccept, hcont⟩ := bind_ok h
    rcases accept_ok haccept with ⟨_, rfl, hs₁⟩ | ⟨rfl, rfl, hs⟩
    · obtain ⟨⟨args, _⟩, s₂, hargs, hcont⟩ := bind_ok hcont
      have hcalls := ih hcont
      rw [Tree.shape_apply, Tree.shape_tuple] at hcalls
      rw [hs₁]
      exact .call (list_ok hinner hargs) hcalls
    · obtain ⟨rfl, rfl⟩ := pure_ok hcont
      exact .noCall hs

end Forms

theorem expr_ok : ReadsExprs (expr stop bound) := by
  induction bound with
  | zero => exact fun s t s' h => absurd h unexpected_ne_ok
  | succ bound ih =>
    intro s t s' h
    unfold expr at h
    obtain ⟨first, s₁, hfirst, h⟩ := bind_ok h
    cases hfirst
    obtain ⟨head, s₂, hhead, h⟩ := bind_ok h
    exact .expr (primary_ok ih hhead) (calls_ok ih h)

/-- **What is read is the reading of all tokens that continues calls.** -/
theorem program_ok {t : Tree Span} (hs : Unended s) (h : program stop bound s = .ok (t, s')) :
    ∃ ss, t.shape = .block () ss ∧ Generates NoCall (.stmts ss) (kinds s) [] := by
  have hext : Extends ⟨.eof, stop⟩ [] (program stop bound) (program stop bound) :=
    program_extends rfl
  have hleft : Unended s' := (hext s hs).2 _ h
  unfold program at h
  obtain ⟨first, s₁, hfirst, h⟩ := bind_ok h
  cases hfirst
  obtain ⟨ss, s₂, hss, h⟩ := bind_ok h
  obtain ⟨rfl, rfl⟩ := pure_ok h
  obtain ⟨hstmts, hend⟩ := statements_ok expr_ok hss
  cases s' with
  | nil => exact ⟨ss.map Tree.shape, Tree.shape_block _ _, hstmts⟩
  | cons t s' => simp [statementsEnd, (unended_cons.mp hleft).1] at hend

end Reader

end LetTyping
