import LetTyping.Tree.Parse

/-!
# Reading up to the end of the text

No reader consumes the end of the text, and none looks behind it.  So what is read from tokens with
an end of the text among them is what is read from the tokens before it, if these are taken to end
where the end of the text stands.

## Main definitions

* `Unended` — tokens without an end of the text.
* `beforeEnd`, `endSpan` — the tokens before the end of a text, and its span.
* `Reader.Extends` — a reader does the same on tokens before an end of the text as another one does
  on those tokens alone.

## Main results

* `Reader.expr_extends`, `Reader.program_extends` — expressions and programs.
* `parseTokens_eq` — **the parser reads the tokens before the end of the text.**
-/

namespace LetTyping

/-- No token is the end of the text. -/
def Unended (s : List (Located Token)) : Prop := ∀ t ∈ s, t.val ≠ .eof

theorem unended_cons {t : Located Token} {s : List (Located Token)} :
    Unended (t :: s) ↔ t.val ≠ .eof ∧ Unended s := List.forall_mem_cons

namespace Reader

variable {α β : Type}

/-- On tokens before the end of the text `e`, the reader `y` does what `x` does on those tokens
alone, and leaves what `x` leaves, with all that follows. -/
def Extends (e : Located Token) (more : List (Located Token)) (x y : Reader α) : Prop :=
  ∀ s, Unended s → y (s ++ e :: more) = (x s).map (fun r => (r.1, r.2 ++ e :: more)) ∧
    ∀ r, x s = .ok r → Unended r.2

section Extends

variable {e : Located Token} {more : List (Located Token)} {stop : Span} {bound first : Nat}

namespace Extends

theorem pure (a : α) : Extends e more (pure a) (pure a) :=
  fun _ hs => ⟨rfl, fun _ hr => by cases hr; exact hs⟩

theorem bind {x y : Reader α} {f g : α → Reader β} (hx : Extends e more x y)
    (hf : ∀ a, Extends e more (f a) (g a)) : Extends e more (x >>= f) (y >>= g) := by
  intro s hs
  obtain ⟨hy, hleft⟩ := hx s hs
  change (y (s ++ e :: more) >>= fun r => g r.1 r.2) =
      (x s >>= fun r => f r.1 r.2).map _ ∧ ∀ r, (x s >>= fun r => f r.1 r.2) = .ok r → _
  rw [hy]
  cases hrun : x s with
  | error fault => exact ⟨rfl, fun _ hr => nomatch hr⟩
  | ok r => exact hf r.1 r.2 (hleft r hrun)

theorem last {x y : Reader α} (hx : Extends e more x y) (f : α → β) :
    Extends e more (x >>= fun a => Pure.pure (f a)) (y >>= fun a => Pure.pure (f a)) :=
  hx.bind fun a => .pure (f a)

end Extends

theorem start_extends : Extends e more (start e.span) (start stop) := by
  intro s hs
  cases s with
  | nil => exact ⟨rfl, fun _ hr => by cases hr; exact hs⟩
  | cons t s => exact ⟨rfl, fun _ hr => by cases hr; exact hs⟩

variable (he : e.val = .eof)

include he

theorem unexpected_extends (expected : String) :
    Extends e more (unexpected e.span expected : Reader α) (unexpected stop expected) := by
  intro s hs
  cases s with
  | nil => simp [unexpected, he, Except.map]
  | cons t s => simp [unexpected, (unended_cons.mp hs).1, Except.map]

theorem accept_extends {token : Token} (htoken : token ≠ .eof) :
    Extends e more (accept token) (accept token) := by
  intro s hs
  cases s with
  | nil =>
    have hother : e.val ≠ token := fun h => htoken (h ▸ he)
    exact ⟨if_neg hother, fun _ hr => by cases hr; exact hs⟩
  | cons t s =>
    have hrest := (unended_cons.mp hs).2
    simp only [accept, List.cons_append]
    split
    · exact ⟨rfl, fun _ hr => by cases hr; exact hrest⟩
    · exact ⟨rfl, fun _ hr => by cases hr; exact hs⟩

theorem expect_extends {token : Token} (htoken : token ≠ .eof) :
    Extends e more (expect e.span token) (expect stop token) := by
  refine (accept_extends he htoken).bind fun found => ?_
  cases found with
  | some span => exact .pure span
  | none => exact unexpected_extends he token.text

theorem ident_extends : Extends e more (ident e.span) (ident stop) := by
  have hother : Extends e more (unexpected e.span "identifier" : Reader String)
    (unexpected stop "identifier") := unexpected_extends he "identifier"
  obtain ⟨token, span⟩ := e
  obtain rfl : token = .eof := he
  intro s hs
  rcases s with _ | ⟨⟨token, _⟩, s⟩
  · exact hother [] hs
  · cases token with
    | ident name => exact ⟨rfl, fun _ hr => by cases hr; exact (unended_cons.mp hs).2⟩
    | _ => exact hother _ hs

theorem params_extends : Extends e more (params e.span bound) (params stop bound) := by
  induction bound with
  | zero => exact unexpected_extends he "identifier"
  | succ bound ih =>
    refine (ident_extends he).bind fun name => ?_
    refine (accept_extends he (by simp)).bind fun found => ?_
    cases found with
    | some _ => exact ih.last _
    | none => exact (expect_extends he (by simp)).last _

/-! ### Forms around expressions -/

section Forms

variable {inner inner' : Reader (Tree Span)} (hinner : Extends e more inner inner')

include hinner

theorem list_extends {close : Token} (hclose : close ≠ .eof) :
    Extends e more (list e.span inner close bound) (list stop inner' close bound) := by
  induction bound with
  | zero => exact unexpected_extends he "expression"
  | succ bound ih =>
    refine (accept_extends he hclose).bind fun closing => ?_
    cases closing with
    | some closing => exact .pure _
    | none =>
      refine hinner.bind fun head => ?_
      refine (accept_extends he (by simp)).bind fun comma => ?_
      cases comma with
      | some _ => exact ih.last _
      | none => exact (expect_extends he hclose).last _

theorem parenthesized_extends : Extends e more (parenthesized e.span inner bound first)
    (parenthesized stop inner' bound first) := by
  refine (accept_extends he (by simp)).bind fun closing => ?_
  cases closing with
  | some closing => exact .pure _
  | none =>
    refine hinner.bind fun head => ?_
    refine (accept_extends he (by simp)).bind fun closing => ?_
    cases closing with
    | some _ => exact .pure head
    | none =>
      refine (expect_extends he (by simp)).bind fun _ => ?_
      exact (list_extends he hinner (by simp)).last _

theorem array_extends :
    Extends e more (array e.span inner bound first) (array stop inner' bound first) :=
  (list_extends he hinner (by simp)).last _

theorem function_extends :
    Extends e more (function e.span inner bound first) (function stop inner' bound first) := by
  refine (expect_extends he (by simp)).bind fun _ => ?_
  refine (accept_extends he (by simp)).bind fun closing => ?_
  cases closing with
  | some _ => exact (Extends.pure []).bind fun names => hinner.last _
  | none => exact (params_extends he).bind fun names => hinner.last _

theorem declaration_extends :
    Extends e more (declaration e.span inner first) (declaration stop inner' first) :=
  (ident_extends he).bind fun _ => (expect_extends he (by simp)).bind fun _ => hinner.last _

theorem bareStatement_extends :
    Extends e more (bareStatement e.span inner) (bareStatement stop inner') := by
  have hlet : ∀ first, Extends e more (declaration e.span inner first)
    (declaration stop inner' first) := fun first => declaration_extends he hinner
  obtain ⟨token, span⟩ := e
  obtain rfl : token = .eof := he
  intro s hs
  rcases s with _ | ⟨⟨token, _⟩, s⟩
  · exact hinner [] hs
  have hrest := (unended_cons.mp hs).2
  cases token with
  | letWord => exact hlet _ s hrest
  | returnWord => exact hinner.last _ s hrest
  | ident name =>
    -- the token behind a name decides, and this may be the end of the text
    rcases s with _ | ⟨⟨token, _⟩, s⟩
    · exact hinner _ hs
    · cases token with
      | equals => exact hinner.last _ s (unended_cons.mp hrest).2
      | _ => exact hinner _ hs
  | _ => exact hinner _ hs

theorem statement_extends : Extends e more (statement e.span inner) (statement stop inner') :=
  (bareStatement_extends he hinner).bind fun _ => (accept_extends he (by simp)).last _

theorem statements_extends {inBlock : Bool} : Extends e more (statements e.span inner inBlock bound)
    (statements stop inner' inBlock bound) := by
  induction bound with
  | zero => exact unexpected_extends he "expression"
  | succ bound ih =>
    intro s hs
    -- whether statements end shows in the first token, and the end of the text is such a token
    have hend : statementsEnd inBlock (s ++ e :: more) = statementsEnd inBlock s := by
      cases s with
      | nil => simp [statementsEnd, he]
      | cons t s => rfl
    change (if statementsEnd inBlock (s ++ e :: more) then _ else _ : Reader _) (s ++ e :: more) =
        Except.map _ ((if statementsEnd inBlock s then _ else _ : Reader _) s) ∧
      ∀ r, (if statementsEnd inBlock s then _ else _ : Reader _) s = .ok r → _
    rw [hend]
    split
    · exact Extends.pure [] s hs
    · exact ((statement_extends he hinner).bind fun _ => ih.last _) s hs

theorem block_extends :
    Extends e more (block e.span inner bound first) (block stop inner' bound first) :=
  (statements_extends he hinner).bind fun _ => (expect_extends he (by simp)).last _

theorem primary_extends :
    Extends e more (primary e.span inner bound) (primary stop inner' bound) := by
  -- where the tokens end, the one reader finds none and the other the end of the text; both fail
  -- there
  have hother : Extends e more (unexpected e.span "expression" : Reader (Tree Span))
    (unexpected stop "expression") := unexpected_extends he "expression"
  have hforms : ∀ first,
      Extends e more (parenthesized e.span inner bound first)
        (parenthesized stop inner' bound first) ∧
      Extends e more (array e.span inner bound first) (array stop inner' bound first) ∧
      Extends e more (function e.span inner bound first) (function stop inner' bound first) ∧
      Extends e more (block e.span inner bound first) (block stop inner' bound first) :=
    fun first => ⟨parenthesized_extends he hinner, array_extends he hinner,
      function_extends he hinner, block_extends he hinner⟩
  obtain ⟨token, span⟩ := e
  obtain rfl : token = .eof := he
  intro s hs
  rcases s with _ | ⟨⟨token, first⟩, s⟩
  · exact hother [] hs
  have hrest := (unended_cons.mp hs).2
  obtain ⟨hparen, harray, hfunction, hblock⟩ := hforms first.start
  cases token with
  | int value => exact ⟨rfl, fun _ hr => by cases hr; exact hrest⟩
  | ident name => exact ⟨rfl, fun _ hr => by cases hr; exact hrest⟩
  | openParen => exact hparen s hrest
  | openBracket => exact harray s hrest
  | fnWord => exact hfunction s hrest
  | openBrace => exact hblock s hrest
  | _ => exact hother _ hs

theorem calls_extends {head : Tree Span} : Extends e more (calls e.span inner first head bound)
    (calls stop inner' first head bound) := by
  induction bound generalizing head with
  | zero => exact unexpected_extends he "expression"
  | succ bound ih =>
    refine (accept_extends he (by simp)).bind fun opening => ?_
    cases opening with
    | none => exact .pure head
    | some opening => exact (list_extends he hinner (by simp)).bind fun _ => ih

end Forms

theorem expr_extends : Extends e more (expr e.span bound) (expr stop bound) := by
  induction bound with
  | zero => exact unexpected_extends he "expression"
  | succ bound ih =>
    refine start_extends.bind fun first => ?_
    exact (primary_extends he ih).bind fun head => calls_extends he ih

/-- **A program is read up to the end of the text.** -/
theorem program_extends : Extends e more (program e.span bound) (program stop bound) :=
  start_extends.bind fun _ => (statements_extends he (expr_extends he)).last _

end Extends

end Reader

/-! ### Tokens with and without an end -/

/-- The tokens before the end of the text. -/
def beforeEnd (tokens : List (Located Token)) : List (Located Token) :=
  tokens.takeWhile fun t => t.val ≠ .eof

/-- The span of the end of the text. -/
def endSpan (tokens : List (Located Token)) : Span :=
  ((tokens.find? fun t => t.val = .eof).map Located.span).getD ⟨0, 0⟩

theorem beforeEnd_append {us : List (Located Token)} (h : Unended us) (s : List (Located Token)) :
    beforeEnd (us ++ s) = us ++ beforeEnd s :=
  List.takeWhile_append_of_pos fun t ht => by simpa using h t ht

theorem beforeEnd_stop {stop : Located Token} (h : stop.val = .eof) (s : List (Located Token)) :
    beforeEnd (stop :: s) = [] := by
  simp [beforeEnd, h]

theorem beforeEnd_of_end {body : List (Located Token)} {stop : Located Token} (hbody : Unended body)
    (hstop : stop.val = .eof) (more : List (Located Token)) :
    beforeEnd (body ++ stop :: more) = body := by
  rw [beforeEnd_append hbody, beforeEnd_stop hstop, List.append_nil]

theorem beforeEnd_length_lt (tokens : List (Located Token)) :
    (beforeEnd tokens).length < tokens.length + 1 :=
  Nat.lt_succ_of_le (List.takeWhile_sublist _).length_le

theorem beforeEnd_unended (tokens : List (Located Token)) : Unended (beforeEnd tokens) :=
  fun t ht => by simpa using List.all_eq_true.mp List.all_takeWhile t ht

theorem endSpan_of_end {body : List (Located Token)} {stop : Located Token} (hbody : Unended body)
    (hstop : stop.val = .eof) (more : List (Located Token)) :
    endSpan (body ++ stop :: more) = stop.span := by
  rw [endSpan, List.find?_append, List.find?_eq_none.mpr fun t ht => by simpa using hbody t ht]
  simp [hstop]

theorem endSpan_of_unended {tokens : List (Located Token)} (h : Unended tokens) :
    endSpan tokens = ⟨0, 0⟩ := by
  rw [endSpan, List.find?_eq_none.mpr fun t ht => by simpa using h t ht]
  rfl

/-- Tokens have a first end of the text, or none. -/
theorem unended_or_end (tokens : List (Located Token)) :
    Unended tokens ∨
      ∃ body stop more, tokens = body ++ stop :: more ∧ Unended body ∧ stop.val = .eof := by
  induction tokens with
  | nil => exact Or.inl fun _ ht => nomatch ht
  | cons t tokens ih =>
    by_cases ht : t.val = .eof
    · exact Or.inr ⟨[], t, tokens, rfl, fun _ ht => (nomatch ht), ht⟩
    · rcases ih with h | ⟨body, stop, more, rfl, hbody, hstop⟩
      · exact Or.inl (unended_cons.mpr ⟨ht, h⟩)
      · exact Or.inr ⟨t :: body, stop, more, rfl, unended_cons.mpr ⟨ht, hbody⟩, hstop⟩

theorem parseTokens_eq_program (tokens : List (Located Token)) :
    parseTokens tokens = (Reader.program ⟨0, 0⟩ (tokens.length + 1) tokens).map Prod.fst := rfl

/-- **The parser reads the tokens before the end of the text.** -/
theorem parseTokens_eq (tokens : List (Located Token)) :
    parseTokens tokens = (Reader.program (endSpan tokens) (tokens.length + 1)
      (beforeEnd tokens)).map Prod.fst := by
  rw [parseTokens_eq_program]
  rcases unended_or_end tokens with h | ⟨body, stop, more, rfl, hbody, hstop⟩
  · have hall : beforeEnd tokens = tokens := by simpa [beforeEnd] using beforeEnd_append h []
    rw [endSpan_of_unended h, hall]
  · rw [endSpan_of_end hbody hstop, beforeEnd_of_end hbody hstop,
      (Reader.program_extends hstop body hbody).1]
    cases Reader.program stop.span _ body <;> rfl

end LetTyping
