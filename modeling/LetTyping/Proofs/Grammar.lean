import LetTyping.Token.Lexeme
import LetTyping.Tree

/-!
# The grammar

The grammar of programs, as rules that say which tokens each kind of phrase is made of, with the
tree of the phrase.  A rule is about the tokens from the start of the phrase on and the tokens that
are left behind it.

The grammar is ambiguous.  Semicolons may be left out, so a parenthesis behind a statement may start
the next one or continue a call, and behind a function it may also continue a call of the body.  The
rules therefore take the condition on what is left behind an expression as a parameter: with no
condition they are the grammar as it is written, and with `NoCall` they are the reading in which
every parenthesis that can continue a call does so.

## Main definitions

* `Tree.shape`, `kinds` — a tree without its labels, and tokens without their places.
* `Phrase`, `Generates` — the kinds of phrases, and the grammar.
* `NoCall` — no call is continued by what is left.

## Main results

* `Generates.takes` — how a phrase starts, and that it takes tokens.
* `Generates.exists_noCall` — **what the grammar generates has a reading that continues calls.**
-/

namespace LetTyping

namespace Tree

variable {α : Type}

/-- The tree without its labels. -/
def shape (t : Tree α) : Tree Unit := t.map fun _ => ()

attribute [local simp] map

@[simp] theorem shape_int (l : α) (v : Int) : (int l v).shape = int () v := by
  simp [shape]

@[simp] theorem shape_tuple (l : α) (es : List (Tree α)) :
    (tuple l es).shape = tuple () (es.map shape) := by
  simp [shape]

@[simp] theorem shape_array (l : α) (es : List (Tree α)) :
    (array l es).shape = array () (es.map shape) := by
  simp [shape]

@[simp] theorem shape_var (l : α) (x : String) : (var l x).shape = var () x := by
  simp [shape]

@[simp] theorem shape_apply (l : α) (f a : Tree α) :
    (apply l f a).shape = apply () f.shape a.shape := by
  simp [shape]

@[simp] theorem shape_fn (l : α) (xs : List String) (t : Tree α) :
    (fn l xs t).shape = fn () xs t.shape := by
  simp [shape]

@[simp] theorem shape_decl (l : α) (x : String) (t : Tree α) :
    (decl l x t).shape = decl () x t.shape := by
  simp [shape]

@[simp] theorem shape_assign (l : α) (x : String) (t : Tree α) :
    (assign l x t).shape = assign () x t.shape := by
  simp [shape]

@[simp] theorem shape_ret (l : α) (t : Tree α) : (ret l t).shape = ret () t.shape := by
  simp [shape]

@[simp] theorem shape_block (l : α) (ss : List (Tree α)) :
    (block l ss).shape = block () (ss.map shape) := by
  simp [shape]

end Tree

/-- The tokens without their places. -/
def kinds (tokens : List (Located Token)) : List Token := tokens.map Located.val

@[simp] theorem kinds_nil : kinds [] = [] := rfl

@[simp] theorem kinds_cons (t : Located Token) (tokens : List (Located Token)) :
    kinds (t :: tokens) = t.val :: kinds tokens := rfl

@[simp] theorem length_kinds (tokens : List (Located Token)) :
    (kinds tokens).length = tokens.length := List.length_map _

/-- The kinds of phrases, with their trees. -/
inductive Phrase where
  | primary (t : Tree Unit)
  /-- The argument lists that make the expression `head` the expression `t`. -/
  | calls (head t : Tree Unit)
  | expr (t : Tree Unit)
  | list (es : List (Tree Unit))
  /-- A statement without the semicolon that may follow it. -/
  | bare (s : Tree Unit)
  | stmt (s : Tree Unit)
  | stmts (ss : List (Tree Unit))

/-- The tokens of the parameters of a function. -/
def paramTokens (params : List String) : List Token :=
  (params.map Token.ident).intersperse .comma

/-- The grammar: the phrase is made of the first of the tokens `ts`, and `rest` is left.  What is
left behind an expression satisfies `follow`. -/
inductive Generates (follow : List Token → Prop) : Phrase → List Token → List Token → Prop
  | int {v : Int} {rest} : Generates follow (.primary (.int () v)) (.int v :: rest) rest
  | var {x : String} {rest} : Generates follow (.primary (.var () x)) (.ident x :: rest) rest
  | unit {rest} :
      Generates follow (.primary (.tuple () [])) (.openParen :: .closeParen :: rest) rest
  | group {t ts rest} : Generates follow (.expr t) ts (.closeParen :: rest) →
      Generates follow (.primary t) (.openParen :: ts) rest
  | tuple {t es ts us rest} : Generates follow (.expr t) ts (.comma :: us) →
      Generates follow (.list es) us (.closeParen :: rest) →
      Generates follow (.primary (.tuple () (t :: es))) (.openParen :: ts) rest
  | array {es ts rest} : Generates follow (.list es) ts (.closeBracket :: rest) →
      Generates follow (.primary (.array () es)) (.openBracket :: ts) rest
  | fn {xs body ts rest} : Generates follow (.expr body) ts rest →
      Generates follow (.primary (.fn () xs body))
        (.fnWord :: .openParen :: (paramTokens xs ++ .closeParen :: ts)) rest
  | block {ss ts rest} : Generates follow (.stmts ss) ts (.closeBrace :: rest) →
      Generates follow (.primary (.block () ss)) (.openBrace :: ts) rest
  | noCall {t rest} : follow rest → Generates follow (.calls t t) rest rest
  | call {f es t ts us rest} : Generates follow (.list es) ts (.closeParen :: us) →
      Generates follow (.calls (.apply () f (.tuple () es)) t) us rest →
      Generates follow (.calls f t) (.openParen :: ts) rest
  | expr {head t ts us rest} : Generates follow (.primary head) ts us →
      Generates follow (.calls head t) us rest → Generates follow (.expr t) ts rest
  | noItem {rest} : Generates follow (.list []) rest rest
  | lastItem {t ts rest} : Generates follow (.expr t) ts rest → Generates follow (.list [t]) ts rest
  | item {t es ts us rest} : Generates follow (.expr t) ts (.comma :: us) →
      Generates follow (.list es) us rest → Generates follow (.list (t :: es)) ts rest
  | decl {x t ts rest} : Generates follow (.expr t) ts rest →
      Generates follow (.bare (.decl () x t)) (.letWord :: .ident x :: .equals :: ts) rest
  | ret {t ts rest} : Generates follow (.expr t) ts rest →
      Generates follow (.bare (.ret () t)) (.returnWord :: ts) rest
  | assign {x t ts rest} : Generates follow (.expr t) ts rest →
      Generates follow (.bare (.assign () x t)) (.ident x :: .equals :: ts) rest
  | value {t ts rest} : Generates follow (.expr t) ts rest → Generates follow (.bare t) ts rest
  | plain {s ts rest} : Generates follow (.bare s) ts rest → Generates follow (.stmt s) ts rest
  | ended {s ts rest} : Generates follow (.bare s) ts (.semicolon :: rest) →
      Generates follow (.stmt s) ts rest
  | noStmt {rest} : Generates follow (.stmts []) rest rest
  | next {s ss ts us rest} : Generates follow (.stmt s) ts us →
      Generates follow (.stmts ss) us rest → Generates follow (.stmts (s :: ss)) ts rest

/-- The tokens do not continue a call. -/
def NoCall (rest : List Token) : Prop := rest.head? ≠ some .openParen

/-- Nothing is asked of the tokens behind an expression. -/
def AnyFollow (_ : List Token) : Prop := True

@[simp] theorem noCall_nil : NoCall [] := by simp [NoCall]

@[simp] theorem noCall_cons {token : Token} {rest : List Token} :
    NoCall (token :: rest) ↔ token ≠ .openParen := by simp [NoCall]

/-- The token starts an expression. -/
def Token.startsExpr : Token → Bool
  | int _ | ident _ | openParen | openBracket | fnWord | openBrace => true
  | _ => false

/-- The token starts a statement. -/
def Token.startsStatement (token : Token) : Bool :=
  token.startsExpr || token = letWord || token = returnWord

/-- How the phrase starts, and that it takes tokens: expressions and statements take at least
one. -/
def Phrase.Takes : Phrase → List Token → List Token → Prop
  | primary _, ts, rest | expr _, ts, rest =>
    ∃ token us, ts = token :: us ∧ token.startsExpr ∧ rest.length ≤ us.length
  | bare _, ts, rest | stmt _, ts, rest =>
    ∃ token us, ts = token :: us ∧ token.startsStatement ∧ rest.length ≤ us.length
  | calls _ _, ts, rest | list _, ts, rest | stmts _, ts, rest => rest.length ≤ ts.length

namespace Generates

variable {follow : List Token → Prop} {ph : Phrase} {ts rest : List Token}

/-- A reading under a condition is a reading under a weaker one. -/
theorem mono {follow' : List Token → Prop} (hf : ∀ us, follow us → follow' us)
    (h : Generates follow ph ts rest) : Generates follow' ph ts rest := by
  induction h with
  | noCall hrest => exact .noCall (hf _ hrest)
  | tuple _ _ ih₁ ih₂ => exact .tuple ih₁ ih₂
  | ended _ ih => exact .ended ih
  | _ => constructor <;> assumption

/-- Phrases start with the tokens that they may start with. -/
theorem takes (h : Generates follow ph ts rest) : ph.Takes ts rest := by
  induction h with
  -- for every phrase its first token, and that no more tokens are left than there were
  | int | var => exact ⟨_, _, rfl, rfl, Nat.le_refl _⟩
  | unit => exact ⟨_, _, rfl, rfl, by simp⟩
  | group _ ih =>
    obtain ⟨token, us, rfl, -, hlen⟩ := ih
    exact ⟨_, _, rfl, rfl, by simp at hlen ⊢; omega⟩
  | tuple _ _ ih₁ ih₂ =>
    obtain ⟨token, us, rfl, -, hlen⟩ := ih₁
    simp only [Phrase.Takes, List.length_cons] at hlen ih₂
    exact ⟨_, _, rfl, rfl, by simp; omega⟩
  | array _ ih | block _ ih =>
    simp only [Phrase.Takes, List.length_cons] at ih
    exact ⟨_, _, rfl, rfl, by omega⟩
  | fn _ ih =>
    obtain ⟨token, us, rfl, -, hlen⟩ := ih
    exact ⟨_, _, rfl, rfl, by simp; omega⟩
  | noCall _ | noItem | noStmt => exact Nat.le_refl _
  -- calls may take no token at all, so there is only the count
  | call _ _ ih₁ ih₂ =>
    simp only [Phrase.Takes, List.length_cons] at ih₁ ih₂ ⊢
    omega
  | expr _ _ ih₁ ih₂ =>
    obtain ⟨token, us, rfl, hstart, hlen⟩ := ih₁
    exact ⟨token, us, rfl, hstart, Nat.le_trans ih₂ hlen⟩
  | lastItem _ ih =>
    obtain ⟨token, us, rfl, -, hlen⟩ := ih
    exact Nat.le_succ_of_le hlen
  | item _ _ ih₁ ih₂ =>
    obtain ⟨token, us, rfl, -, hlen⟩ := ih₁
    simp only [Phrase.Takes, List.length_cons] at hlen ih₂ ⊢
    omega
  | decl _ ih | ret _ ih | assign _ ih =>
    obtain ⟨token, us, rfl, -, hlen⟩ := ih
    exact ⟨_, _, rfl, rfl, by simp; omega⟩
  -- a statement may start like an expression
  | value _ ih =>
    obtain ⟨token, us, rfl, hstart, hlen⟩ := ih
    exact ⟨token, us, rfl, by simp [Token.startsStatement, hstart], hlen⟩
  | plain _ ih => exact ih
  | ended _ ih =>
    obtain ⟨token, us, rfl, hstart, hlen⟩ := ih
    exact ⟨token, us, rfl, hstart, Nat.le_of_succ_le hlen⟩
  | next _ _ ih₁ ih₂ =>
    obtain ⟨token, us, rfl, -, hlen⟩ := ih₁
    exact Nat.le_succ_of_le (Nat.le_trans ih₂ hlen)

variable {t : Tree Unit}

theorem primary_length_lt (h : Generates follow (.primary t) ts rest) :
    rest.length < ts.length := by
  obtain ⟨_, _, rfl, -, hlen⟩ := h.takes
  exact Nat.lt_succ_of_le hlen

theorem expr_length_lt (h : Generates follow (.expr t) ts rest) : rest.length < ts.length := by
  obtain ⟨_, _, rfl, -, hlen⟩ := h.takes
  exact Nat.lt_succ_of_le hlen

theorem stmt_length_lt (h : Generates follow (.stmt t) ts rest) : rest.length < ts.length := by
  obtain ⟨_, _, rfl, -, hlen⟩ := h.takes
  exact Nat.lt_succ_of_le hlen

/-- An expression does not start with a token that starts none. -/
theorem head_ne (h : Generates follow (.expr t) ts rest) {token : Token}
    (htoken : token.startsExpr = false) : ts.head? ≠ some token := by
  obtain ⟨first, us, rfl, hfirst, -⟩ := h.takes
  rintro ⟨⟩
  simp [htoken] at hfirst

end Generates

/-! ### Continuing calls

The reading that continues calls reads a statement that starts with a parenthesis as argument lists
of the statement before it.  This is always possible, since what starts an expression with a
parenthesis is an argument list followed by argument lists. -/

/-- The tokens `ts` are argument lists up to `rest`, which continues no call. -/
structure Continues (ts rest : List Token) : Prop where
  noCall : NoCall rest
  calls : ∀ head, ∃ t, Generates NoCall (.calls head t) ts rest

namespace Continues

variable {ts us rest : List Token} {es : List (Tree Unit)}

theorem done (h : NoCall rest) : Continues rest rest := ⟨h, fun head => ⟨head, .noCall h⟩⟩

theorem call (hlist : Generates NoCall (.list es) ts (.closeParen :: us)) (h : Continues us rest) :
    Continues (.openParen :: ts) rest := by
  refine ⟨h.noCall, fun head => ?_⟩
  obtain ⟨t, ht⟩ := h.calls (.apply () head (.tuple () es))
  exact ⟨t, .call hlist ht⟩

end Continues

/-- The tokens are statements up to `final`, and behind another statement they are argument lists
of it and then statements. -/
structure Resumes (us final : List Token) : Prop where
  here : ∃ ss, Generates NoCall (.stmts ss) us final
  behind : ∃ mid, Continues us mid ∧ ∃ ss, ∀ s ts, Generates NoCall (.bare s) ts mid →
    Generates NoCall (.stmts (s :: ss)) ts final

theorem Resumes.of_noCall {us final : List Token} {ss : List (Tree Unit)} (h : NoCall us)
    (hss : Generates NoCall (.stmts ss) us final) : Resumes us final :=
  ⟨⟨ss, hss⟩, us, .done h, ss, fun _ _ hs => .next (.plain hs) hss⟩

/-- How the phrase is read when calls are continued.  An expression takes the argument lists behind
it, too, and if it starts with a parenthesis, then it is argument lists itself. -/
def Phrase.Regroups : Phrase → List Token → List Token → Prop
  | primary _, ts, rest | expr _, ts, rest => ∀ rest', Continues rest rest' →
    (∃ t, Generates NoCall (.expr t) ts rest') ∧ (¬ NoCall ts → Continues ts rest')
  | calls _ _, ts, rest => ∀ rest', Continues rest rest' → Continues ts rest'
  | list _, ts, rest => NoCall rest → ∃ es, Generates NoCall (.list es) ts rest
  | bare _, ts, rest => ∀ rest', Continues rest rest' →
    (∃ s, Generates NoCall (.bare s) ts rest') ∧ (¬ NoCall ts → Continues ts rest')
  | stmt _, ts, rest => ∀ final, Resumes rest final → Resumes ts final
  | stmts _, ts, rest => NoCall rest → Resumes ts rest

/-- A primary expression and the argument lists behind it. -/
theorem Generates.expr_of_continues {t : Tree Unit} {ts rest rest' : List Token}
    (h : Generates NoCall (.primary t) ts rest) (hrest : Continues rest rest') :
    ∃ t', Generates NoCall (.expr t') ts rest' := by
  obtain ⟨t', ht'⟩ := hrest.calls t
  exact ⟨t', .expr h ht'⟩

/-- **Every phrase can be read so that calls are continued.** -/
theorem Generates.regroups {follow : List Token → Prop} {ph : Phrase} {ts rest : List Token}
    (h : Generates follow ph ts rest) : ph.Regroups ts rest := by
  -- by induction on the derivation: the lists, blocks and bodies inside are regrouped first
  induction h with
  | int =>
    intro rest' hrest
    exact ⟨expr_of_continues .int hrest, by simp⟩
  | var =>
    intro rest' hrest
    exact ⟨expr_of_continues .var hrest, by simp⟩
  | unit =>
    intro rest' hrest
    exact ⟨expr_of_continues .unit hrest, fun _ => .call .noItem hrest⟩
  | group _ ih =>
    intro rest' hrest
    obtain ⟨⟨t, ht⟩, -⟩ := ih _ (.done (by simp))
    exact ⟨expr_of_continues (.group ht) hrest, fun _ => .call (.lastItem ht) hrest⟩
  | tuple _ _ ih₁ ih₂ =>
    intro rest' hrest
    obtain ⟨⟨t, ht⟩, -⟩ := ih₁ _ (.done (by simp))
    obtain ⟨es, hes⟩ := ih₂ (by simp)
    exact ⟨expr_of_continues (.tuple ht hes) hrest, fun _ => .call (.item ht hes) hrest⟩
  | array _ ih =>
    intro rest' hrest
    obtain ⟨es, hes⟩ := ih (by simp)
    exact ⟨expr_of_continues (.array hes) hrest, by simp⟩
  | fn _ ih =>
    intro rest' hrest
    -- the body takes the argument lists
    obtain ⟨⟨body, hbody⟩, -⟩ := ih rest' hrest
    exact ⟨expr_of_continues (.fn hbody) (.done hrest.noCall), by simp⟩
  | block _ ih =>
    intro rest' hrest
    obtain ⟨ss, hss⟩ := (ih (by simp)).here
    exact ⟨expr_of_continues (.block hss) hrest, by simp⟩
  | noCall _ => exact fun rest' hrest => hrest
  | call _ _ ih₁ ih₂ =>
    intro rest' hrest
    obtain ⟨es, hes⟩ := ih₁ (by simp)
    exact .call hes (ih₂ rest' hrest)
  | expr _ _ ih₁ ih₂ => exact fun rest' hrest => ih₁ rest' (ih₂ rest' hrest)
  | noItem => exact fun _ => ⟨[], .noItem⟩
  | lastItem _ ih =>
    intro hrest
    obtain ⟨⟨t, ht⟩, -⟩ := ih _ (.done hrest)
    exact ⟨[t], .lastItem ht⟩
  | item _ _ ih₁ ih₂ =>
    intro hrest
    obtain ⟨⟨t, ht⟩, -⟩ := ih₁ _ (.done (by simp))
    obtain ⟨es, hes⟩ := ih₂ hrest
    exact ⟨t :: es, .item ht hes⟩
  | decl _ ih =>
    intro rest' hrest
    obtain ⟨⟨t, ht⟩, -⟩ := ih rest' hrest
    exact ⟨⟨_, .decl ht⟩, by simp⟩
  | ret _ ih =>
    intro rest' hrest
    obtain ⟨⟨t, ht⟩, -⟩ := ih rest' hrest
    exact ⟨⟨_, .ret ht⟩, by simp⟩
  | assign _ ih =>
    intro rest' hrest
    obtain ⟨⟨t, ht⟩, -⟩ := ih rest' hrest
    exact ⟨⟨_, .assign ht⟩, by simp⟩
  | value _ ih =>
    intro rest' hrest
    obtain ⟨⟨t, ht⟩, hcalls⟩ := ih rest' hrest
    exact ⟨⟨t, .value ht⟩, hcalls⟩
  | @plain s ts rest _ ih =>
    intro final hrest
    -- the statement takes the argument lists with which the next statements start
    obtain ⟨mid, hmid, ss, hss⟩ := hrest.behind
    obtain ⟨⟨s', hs'⟩, hcalls⟩ := ih mid hmid
    -- if it starts with a parenthesis, the statement before it may take it as a whole
    by_cases hts : NoCall ts
    · exact .of_noCall hts (hss s' ts hs')
    · exact ⟨⟨_, hss s' ts hs'⟩, mid, hcalls hts, ss, hss⟩
  | @ended s ts rest _ ih =>
    intro final hrest
    -- no call goes on behind a semicolon
    obtain ⟨ss, hss⟩ := hrest.here
    obtain ⟨⟨s', hs'⟩, hcalls⟩ := ih _ (.done (by simp))
    by_cases hts : NoCall ts
    · exact .of_noCall hts (.next (.ended hs') hss)
    · exact ⟨⟨_, .next (.ended hs') hss⟩, _, hcalls hts, ss, fun _ _ hs => .next (.ended hs) hss⟩
  | noStmt => exact fun hrest => .of_noCall hrest .noStmt
  | next _ _ ih₁ ih₂ => exact fun hrest => ih₁ _ (ih₂ hrest)

/-- **Continuing calls rejects nothing**: statements that can be read at all can be read so that
every parenthesis that can continue a call does so. -/
theorem Generates.exists_noCall {follow : List Token → Prop} {ss : List (Tree Unit)}
    {ts : List Token} (h : Generates follow (.stmts ss) ts []) :
    ∃ ss', Generates NoCall (.stmts ss') ts [] :=
  (h.regroups noCall_nil).here

end LetTyping
