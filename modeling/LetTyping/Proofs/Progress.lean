import LetTyping.Proofs.FirstFault

/-!
# The parser comes to its end

Every reader of a form takes at least one token when it succeeds, from the front of those it is
given, and never the end of the text.  So a loop that reads a form in every round ends, and so do
expressions inside expressions, since a form takes a token before the expressions in it.

The loops and the nesting of expressions have bounds, and a bound that is reached gives an answer
like any other.  That no bound is ever reached is said by looking at one round of a loop, or at one
level of nesting, as a function of what comes next.  Readers that take these steps agree on all
tokens that are fewer than the steps, whatever they do where the steps end.

## Main definitions

* `Reader.Leaves` — what is left when tokens before the end of the text are taken.
* `Reader.Skips`, `Reader.Progresses` — a reader takes tokens from the front, or at least one token.
* `Reader.Agrees` — two readers do the same on fewer than a number of tokens.
* `Reader.exprStep`, `Reader.listStep`, … — one level of nesting, and one round of each loop.
* `Reader.Bottomless` — what is done where the steps end plays no part.

## Main results

* `Reader.expr_progresses`, `Reader.statement_progresses` — forms take at least one token.
* `Reader.expr_bottomless`, `Reader.statements_bottomless`, … — nesting and loops end.
* `parser_terminates` — **the parser comes to its end on all tokens, and looks at none behind the
  end of the text.**
-/

namespace LetTyping

namespace Reader

variable {α β : Type} {stop : Span} {bound k m : Nat}

/-! ### Progress -/

/-- The tokens `s'` are left of `s` when some are taken from the front, and the end of the text is
not among those. -/
def Leaves (s s' : List (Located Token)) : Prop :=
  ∃ used, s = used ++ s' ∧ ∀ t ∈ used, t.val ≠ .eof

namespace Leaves

variable {s s₁ s₂ : List (Located Token)}

theorem refl (s : List (Located Token)) : Leaves s s := ⟨[], rfl, by simp⟩

theorem trans (h : Leaves s s₁) (h₁ : Leaves s₁ s₂) : Leaves s s₂ := by
  obtain ⟨used, rfl, hused⟩ := h
  obtain ⟨used₁, rfl, hused₁⟩ := h₁
  exact ⟨used ++ used₁, by simp, List.forall_mem_append.mpr ⟨hused, hused₁⟩⟩

theorem cons {t : Located Token} (ht : t.val ≠ .eof) (h : Leaves s s₁) : Leaves (t :: s) s₁ :=
  trans ⟨[t], rfl, by simpa using ht⟩ h

theorem length_le (h : Leaves s s₁) : s₁.length ≤ s.length := by
  obtain ⟨used, rfl, -⟩ := h
  simp only [List.length_append]
  omega

end Leaves

/-- If the reader succeeds, it has taken tokens from the front of those it was given. -/
def Skips (x : Reader α) : Prop := ∀ s a s', x s = .ok (a, s') → Leaves s s'

/-- If the reader succeeds, it has taken tokens from the front of those it was given, and at least
one of them. -/
def Progresses (x : Reader α) : Prop :=
  ∀ s a s', x s = .ok (a, s') → Leaves s s' ∧ s'.length < s.length

theorem Progresses.skips {x : Reader α} (h : Progresses x) : Skips x := fun s a s' hx =>
  (h s a s' hx).1

namespace Skips

variable {x : Reader α} {f : α → Reader β} {token : Token}

theorem pure (a : α) : Skips (pure a) := by
  intro s b s' h
  obtain ⟨-, rfl⟩ := pure_ok h
  exact .refl s'

theorem bind (hx : Skips x) (hf : ∀ a, Skips (f a)) : Skips (x >>= f) := by
  intro s b s' h
  obtain ⟨a, s₁, ha, hb⟩ := bind_ok h
  exact (hx s a s₁ ha).trans (hf a s₁ b s' hb)

theorem accept (htoken : token ≠ .eof) : Skips (accept token) := by
  intro s found s' h
  rcases accept_cases h with ⟨span, -, rfl⟩ | ⟨-, rfl, -⟩
  · exact .cons htoken (.refl s')
  · exact .refl s'

/-- Behind a token that decides how to go on. -/
theorem behind {s s' : List (Located Token)} {t : Located Token} {a : α} (hx : Skips x)
    (ht : t.val ≠ .eof) (h : x s = .ok (a, s')) :
    Leaves (t :: s) s' ∧ s'.length < (t :: s).length :=
  ⟨.cons ht (hx s a s' h), Nat.lt_succ_of_le (hx s a s' h).length_le⟩

end Skips

namespace Progresses

variable {x : Reader α} {f : α → Reader β} {token : Token}

theorem unexpected {expected : String} : Progresses (unexpected stop expected : Reader α) :=
  fun _ _ _ h => absurd h unexpected_ne_ok

theorem bind (hx : Progresses x) (hf : ∀ a, Skips (f a)) : Progresses (x >>= f) := by
  intro s b s' h
  obtain ⟨a, s₁, ha, hb⟩ := bind_ok h
  obtain ⟨hs₁, hlt⟩ := hx s a s₁ ha
  have hs' := hf a s₁ b s' hb
  exact ⟨hs₁.trans hs', Nat.lt_of_le_of_lt hs'.length_le hlt⟩

theorem after (hx : Skips x) (hf : ∀ a, Progresses (f a)) : Progresses (x >>= f) := by
  intro s b s' h
  obtain ⟨a, s₁, ha, hb⟩ := bind_ok h
  have hs₁ := hx s a s₁ ha
  obtain ⟨hs', hlt⟩ := hf a s₁ b s' hb
  exact ⟨hs₁.trans hs', Nat.lt_of_lt_of_le hlt hs₁.length_le⟩

/-- A token that may be there. -/
theorem accept {f : Option Span → Reader β} (htoken : token ≠ .eof)
    (hfound : ∀ span, Skips (f (some span))) (hother : Progresses (f none)) :
    Progresses (accept token >>= f) := by
  intro s b s' h
  obtain ⟨_, s₁, haccept, hcont⟩ := bind_ok h
  rcases accept_cases haccept with ⟨span, rfl, rfl⟩ | ⟨rfl, rfl, -⟩
  · exact (hfound span).behind htoken hcont
  · exact hother s₁ b s' hcont

theorem expect (htoken : token ≠ .eof) : Progresses (expect stop token) :=
  .accept htoken (fun _ => .pure _) .unexpected

theorem ident : Progresses (ident stop) := by
  intro s name s' h
  unfold Reader.ident at h
  split at h
  · exact (Skips.pure _).behind (by simp) h
  · exact absurd h unexpected_ne_ok

end Progresses

theorem start_skips : Skips (start stop) := by
  intro s first s' h
  cases h
  exact .refl s

theorem params_progresses : Progresses (params stop bound) := by
  induction bound with
  | zero => exact .unexpected
  | succ bound ih =>
    refine .bind .ident fun name => (Progresses.accept (by simp) (fun _ => ?_) ?_).skips
    · exact ih.skips.bind fun _ => .pure _
    · exact .bind (.expect (by simp)) fun _ => .pure _

section Forms

variable {inner : Reader (Tree Span)} {first : Nat} (hinner : Progresses inner)

include hinner

theorem list_progresses {close : Token} (hclose : close ≠ .eof) :
    Progresses (list stop inner close bound) := by
  induction bound with
  | zero => exact .unexpected
  | succ bound ih =>
    refine .accept hclose (fun _ => .pure _) (hinner.bind fun head => ?_)
    refine (Progresses.accept (by simp) (fun _ => ?_) ?_).skips
    · exact ih.skips.bind fun _ => .pure _
    · exact .bind (.expect hclose) fun _ => .pure _

theorem parenthesized_progresses : Progresses (parenthesized stop inner bound first) := by
  refine .accept (by simp) (fun _ => .pure _) (hinner.bind fun head => ?_)
  refine Progresses.skips (.accept (by simp) (fun _ => .pure _) ?_)
  exact .bind (.expect (by simp)) fun _ =>
    (list_progresses hinner (by simp)).skips.bind fun _ => .pure _

theorem array_progresses : Progresses (array stop inner bound first) :=
  (list_progresses hinner (by simp)).bind fun _ => .pure _

theorem function_progresses : Progresses (function stop inner bound first) := by
  have hbody : ∀ names, Progresses (do
      let body ← inner
      return Tree.fn ⟨first, body.label.stop⟩ names body) :=
    fun names => hinner.bind fun _ => .pure _
  refine .bind (.expect (by simp)) fun _ => (Progresses.accept (by simp) (fun _ => ?_) ?_).skips
  · exact (hbody []).skips
  · exact .bind params_progresses fun names => (hbody names).skips

theorem declaration_progresses : Progresses (declaration stop inner first) :=
  .bind .ident fun _ => .bind (Progresses.expect (by simp)).skips fun _ =>
    hinner.skips.bind fun _ => .pure _

theorem bareStatement_progresses : Progresses (bareStatement stop inner) := by
  intro s t s' h
  unfold bareStatement at h
  split at h
  · exact (declaration_progresses hinner).skips.behind (by simp) h
  · exact (hinner.skips.bind fun _ => .pure _).behind (by simp) h
  · have hvalue := hinner.skips.bind (fun _ => .pure _) _ _ _ h
    exact ⟨.cons (by simp) (.cons (by simp) hvalue),
      Nat.lt_succ_of_le (Nat.le_succ_of_le hvalue.length_le)⟩
  · exact hinner _ _ _ h

theorem statement_progresses : Progresses (statement stop inner) :=
  (bareStatement_progresses hinner).bind fun _ => (Skips.accept (by simp)).bind fun _ => .pure _

theorem statements_skips {inBlock : Bool} : Skips (statements stop inner inBlock bound) := by
  induction bound with
  | zero => exact Progresses.unexpected.skips
  | succ bound ih =>
    intro s ss s' h
    unfold statements at h
    obtain ⟨_, _, hget, h⟩ := bind_ok h
    cases hget
    split at h
    · exact Skips.pure _ s ss s' h
    -- a statement takes tokens from the front, and so do those behind it
    · have hrest : Skips (do
          let head ← statement stop inner
          let tail ← statements stop inner inBlock bound
          return head :: tail) :=
        (statement_progresses hinner).skips.bind fun _ => ih.bind fun _ => .pure _
      exact hrest s ss s' h

theorem block_progresses : Progresses (block stop inner bound first) :=
  .after (statements_skips hinner) fun _ => .bind (.expect (by simp)) fun _ => .pure _

theorem primary_progresses : Progresses (primary stop inner bound) := by
  intro s t s' h
  unfold primary at h
  split at h
  · exact (Skips.pure _).behind (by simp) h
  · exact (Skips.pure _).behind (by simp) h
  · exact (parenthesized_progresses hinner).skips.behind (by simp) h
  · exact (array_progresses hinner).skips.behind (by simp) h
  · exact (function_progresses hinner).skips.behind (by simp) h
  · exact (block_progresses hinner).skips.behind (by simp) h
  · exact absurd h unexpected_ne_ok

theorem calls_skips {head : Tree Span} : Skips (calls stop inner first head bound) := by
  induction bound generalizing head with
  | zero => exact Progresses.unexpected.skips
  | succ bound ih =>
    refine (Skips.accept (by simp)).bind fun found => ?_
    cases found with
    | none => exact .pure _
    | some opening => exact (list_progresses hinner (by simp)).skips.bind fun _ => ih

end Forms

theorem expr_progresses : Progresses (expr stop bound) := by
  induction bound with
  | zero => exact .unexpected
  | succ bound ih =>
    exact .after start_skips fun _ => (primary_progresses ih).bind fun _ => calls_skips ih

/-! ### Agreement -/

/-- The readers do the same on fewer than `k` tokens. -/
def Agrees (k : Nat) (x y : Reader α) : Prop := ∀ s, s.length < k → x s = y s

namespace Agrees

variable {x y : Reader α} {f g : α → Reader β}

theorem refl (x : Reader α) : Agrees k x x := fun _ _ => rfl

theorem mono (h : Agrees k x y) (hm : m ≤ k) : Agrees m x y := fun s hs =>
  h s (Nat.lt_of_lt_of_le hs hm)

/-- The second readers agree on the tokens that the first ones leave. -/
theorem bind_of_length (hxy : Agrees k x y)
    (hy : ∀ s a s', y s = .ok (a, s') → s.length < k → s'.length < m)
    (hfg : ∀ a, Agrees m (f a) (g a)) : Agrees k (x >>= f) (y >>= g) := by
  intro s hs
  change (x s >>= fun p => f p.1 p.2) = (y s >>= fun p => g p.1 p.2)
  rw [hxy s hs]
  cases hys : y s with
  | error e => rfl
  | ok p => exact hfg p.1 p.2 (hy s p.1 p.2 hys hs)

theorem bind (hxy : Agrees k x y) (hy : Skips y) (hfg : ∀ a, Agrees k (f a) (g a)) :
    Agrees k (x >>= f) (y >>= g) :=
  hxy.bind_of_length (fun s a s' h => Nat.lt_of_le_of_lt (hy s a s' h).length_le) hfg

/-- Behind a reader that takes a token, agreement on one token less is enough. -/
theorem afterSome (hxy : Agrees (k + 1) x y) (hy : Progresses y)
    (hfg : ∀ a, Agrees k (f a) (g a)) : Agrees (k + 1) (x >>= f) (y >>= g) :=
  hxy.bind_of_length
    (fun s a s' h hs => Nat.lt_of_lt_of_le (hy s a s' h).2 (Nat.le_of_lt_succ hs)) hfg

/-- Nothing is read behind the last reader. -/
theorem last (hxy : Agrees k x y) : Agrees k (x >>= f) (y >>= f) := by
  intro s hs
  change (x s >>= fun p => f p.1 p.2) = (y s >>= fun p => f p.1 p.2)
  rw [hxy s hs]

/-- A token that may be there. -/
theorem accept {token : Token} {f g : Option Span → Reader β}
    (hfound : ∀ span, Agrees m (f (some span)) (g (some span)))
    (hother : Agrees k (f none) (g none)) (hm : k ≤ m + 1) :
    Agrees k (accept token >>= f) (accept token >>= g) := by
  intro s hs
  rcases next_cases token s with ⟨span, s', rfl⟩ | hnext
  · rw [bind_of_ok (accept_here token span s'), bind_of_ok (accept_here token span s')]
    exact hfound span s' (by simp only [List.length_cons] at hs; omega)
  · rw [bind_of_ok (accept_other hnext), bind_of_ok (accept_other hnext)]
    exact hother s hs

end Agrees

/-! ### Steps

Each loop and the nesting of expressions as one step, given what comes after it. -/

/-- One parameter, with the reader of those behind its comma. -/
def paramsStep (stop : Span) (again : Reader (List String)) : Reader (List String) := do
  let name ← ident stop
  match ← accept .comma with
  | some _ =>
    let names ← again
    return name :: names
  | none =>
    let _ ← expect stop .closeParen
    return [name]

/-- One item of a list, with the reader of those behind its comma. -/
def listStep (stop : Span) (inner : Reader (Tree Span)) (close : Token)
    (again : Reader (List (Tree Span) × Span)) : Reader (List (Tree Span) × Span) := do
  match ← accept close with
  | some closing => return ([], closing)
  | none =>
    let head ← inner
    match ← accept .comma with
    | some _ =>
      let (tail, closing) ← again
      return (head :: tail, closing)
    | none =>
      let closing ← expect stop close
      return ([head], closing)

/-- One statement, with the reader of those behind it. -/
def statementsStep (stop : Span) (inner : Reader (Tree Span)) (inBlock : Bool)
    (again : Reader (List (Tree Span))) : Reader (List (Tree Span)) := do
  if statementsEnd inBlock (← get) then
    return []
  else
    let head ← statement stop inner
    let tail ← again
    return head :: tail

/-- One call of the expression `head`, with the reader of the calls of the result. -/
def callsStep (stop : Span) (inner : Reader (Tree Span)) (first bound : Nat)
    (again : Tree Span → Reader (Tree Span)) (head : Tree Span) : Reader (Tree Span) := do
  match ← accept .openParen with
  | none => return head
  | some opening =>
    let (args, closing) ← list stop inner .closeParen bound
    again (.apply ⟨first, closing.stop⟩ head (.tuple ⟨opening.start, closing.stop⟩ args))

/-- One expression, with the reader of those inside it. -/
def exprStep (stop : Span) (bound : Nat) (inner : Reader (Tree Span)) : Reader (Tree Span) := do
  let first ← start stop
  let head ← primary stop inner bound
  calls stop inner first head bound

/-- A program, with the reader of its statements. -/
def programOf (stop : Span) (stmts : Reader (List (Tree Span))) : Reader (Tree Span) := do
  let first ← start stop
  let stmts ← stmts
  return .block ⟨first, (stmts.getLast?.map fun s => s.label.stop).getD first⟩ stmts

theorem calls_succ {inner : Reader (Tree Span)} {first n : Nat} {head : Tree Span} :
    calls stop inner first head (n + 1) =
      callsStep stop inner first n (fun t => calls stop inner first t n) head := rfl

theorem paramsStep_agrees {again again' : Reader (List String)} (hagain : Agrees k again again') :
    Agrees (k + 1) (paramsStep stop again) (paramsStep stop again') :=
  .afterSome (.refl _) .ident fun _ => .accept (fun _ => hagain.last) (.refl _) (Nat.le_succ k)

section Steps

variable {inner inner' : Reader (Tree Span)} {first n : Nat}

theorem function_agrees (hinner : Agrees k inner inner') :
    Agrees k (function stop inner n first) (function stop inner' n first) := by
  have hbody : ∀ names, Agrees k (do
      let body ← inner
      return Tree.fn ⟨first, body.label.stop⟩ names body) (do
      let body ← inner'
      return Tree.fn ⟨first, body.label.stop⟩ names body) := fun names => hinner.last
  refine .bind (.refl _) (Progresses.expect (by simp)).skips fun _ => ?_
  refine .accept (fun _ => hbody []) ?_ (Nat.le_succ k)
  exact .bind (.refl _) params_progresses.skips hbody

theorem declaration_agrees (hinner : Agrees k inner inner') :
    Agrees k (declaration stop inner first) (declaration stop inner' first) :=
  .bind (.refl _) Progresses.ident.skips fun _ =>
    .bind (.refl _) (Progresses.expect (by simp)).skips fun _ => hinner.last

theorem bareStatement_agrees (hinner : Agrees k inner inner') :
    Agrees k (bareStatement stop inner) (bareStatement stop inner') := by
  intro s hs
  unfold bareStatement
  split
  · exact declaration_agrees hinner _ (Nat.lt_of_succ_lt hs)
  · exact hinner.last _ (Nat.lt_of_succ_lt hs)
  · exact hinner.last _ (Nat.lt_of_succ_lt (Nat.lt_of_succ_lt hs))
  · exact hinner _ hs

theorem statement_agrees (hinner : Agrees k inner inner') :
    Agrees k (statement stop inner) (statement stop inner') :=
  (bareStatement_agrees hinner).last

variable (hinner' : Progresses inner')

include hinner'

/-- Items behind the first one may agree on one token less. -/
theorem listStep_agrees {close : Token} {again again' : Reader (List (Tree Span) × Span)}
    (hinner : Agrees k inner inner') (hagain : Agrees m again again') (hm : k ≤ m + 1) :
    Agrees k (listStep stop inner close again) (listStep stop inner' close again') := by
  refine .accept (fun _ => .refl _) ?_ (Nat.le_succ k)
  refine .bind hinner hinner'.skips fun head => ?_
  exact .accept (fun _ => hagain.last) (.refl _) hm

theorem list_agrees {close : Token} (hinner : Agrees k inner inner') :
    Agrees k (list stop inner close n) (list stop inner' close n) := by
  induction n with
  | zero => exact .refl _
  | succ n ih => exact listStep_agrees hinner' hinner ih (Nat.le_succ k)

theorem parenthesized_agrees (hinner : Agrees k inner inner') :
    Agrees k (parenthesized stop inner n first) (parenthesized stop inner' n first) := by
  refine .accept (fun _ => .refl _) ?_ (Nat.le_succ k)
  refine .bind hinner hinner'.skips fun head => .accept (fun _ => .refl _) ?_ (Nat.le_succ k)
  exact .bind (.refl _) (Progresses.expect (by simp)).skips fun _ =>
    (list_agrees hinner' hinner).last

theorem array_agrees (hinner : Agrees k inner inner') :
    Agrees k (array stop inner n first) (array stop inner' n first) :=
  (list_agrees hinner' hinner).last

/-- Statements behind the first one may agree on one token less. -/
theorem statementsStep_agrees {inBlock : Bool} {again again' : Reader (List (Tree Span))}
    (hinner : Agrees (k + 1) inner inner') (hagain : Agrees k again again') :
    Agrees (k + 1) (statementsStep stop inner inBlock again)
      (statementsStep stop inner' inBlock again') := by
  intro s hs
  have hrest : Agrees (k + 1) (do
      let head ← statement stop inner
      let tail ← again
      return head :: tail) (do
      let head ← statement stop inner'
      let tail ← again'
      return head :: tail) :=
    .afterSome (statement_agrees hinner) (statement_progresses hinner') fun _ => hagain.last
  refine (bind_of_ok rfl).trans (.trans ?_ (bind_of_ok rfl).symm)
  split
  · rfl
  · exact hrest s hs

theorem statements_agrees {inBlock : Bool} (hinner : Agrees k inner inner') :
    Agrees k (statements stop inner inBlock n) (statements stop inner' inBlock n) := by
  cases k with
  | zero => exact fun _ hs => absurd hs (Nat.not_lt_zero _)
  | succ k =>
    induction n with
    | zero => exact .refl _
    | succ n ih => exact statementsStep_agrees hinner' hinner (ih.mono (Nat.le_succ k))

theorem block_agrees (hinner : Agrees k inner inner') :
    Agrees k (block stop inner n first) (block stop inner' n first) :=
  (statements_agrees hinner' hinner).last

/-- The first token of an expression is never one of an expression inside it. -/
theorem primary_agrees (hinner : Agrees k inner inner') :
    Agrees (k + 1) (primary stop inner n) (primary stop inner' n) := by
  intro s hs
  unfold primary
  split
  · rfl
  · rfl
  · exact parenthesized_agrees hinner' hinner _ (Nat.lt_of_succ_lt_succ hs)
  · exact array_agrees hinner' hinner _ (Nat.lt_of_succ_lt_succ hs)
  · exact function_agrees hinner _ (Nat.lt_of_succ_lt_succ hs)
  · exact block_agrees hinner' hinner _ (Nat.lt_of_succ_lt_succ hs)
  · rfl

/-- Calls behind the first one may agree on one token less. -/
theorem callsStep_agrees {again again' : Tree Span → Reader (Tree Span)} {head : Tree Span}
    (hinner : Agrees m inner inner') (hagain : ∀ t, Agrees m (again t) (again' t))
    (hm : k ≤ m + 1) :
    Agrees k (callsStep stop inner first n again head)
      (callsStep stop inner' first n again' head) := by
  refine .accept (fun opening => ?_) (.refl _) hm
  exact .bind (list_agrees hinner' hinner) (list_progresses hinner' (by simp)).skips fun _ =>
    hagain _

theorem calls_agrees {head : Tree Span} (hinner : Agrees k inner inner') :
    Agrees k (calls stop inner first head n) (calls stop inner' first head n) := by
  induction n generalizing head with
  | zero => exact .refl _
  | succ n ih =>
    rw [calls_succ, calls_succ]
    exact callsStep_agrees hinner' hinner (fun _ => ih) (Nat.le_succ k)

/-- Expressions agree on one token more than the expressions inside them. -/
theorem exprStep_agrees (hinner : Agrees k inner inner') :
    Agrees (k + 1) (exprStep stop n inner) (exprStep stop n inner') :=
  .bind (.refl _) start_skips fun _ =>
    .afterSome (primary_agrees hinner' hinner) (primary_progresses hinner') fun _ =>
      calls_agrees hinner' hinner

end Steps

/-! ### Nesting and loops end -/

/-- What is done where the steps end plays no part: `x` takes the steps `F`, and all that takes them
as well does the same on fewer tokens than steps. -/
def Bottomless {ρ : Type} (F : Nat → (List (Located Token) → ρ) → List (Located Token) → ρ)
    (x : Nat → List (Located Token) → ρ) : Prop :=
  (∀ n, x (n + 1) = F n (x n)) ∧
    ∀ y : Nat → List (Located Token) → ρ, (∀ n, y (n + 1) = F n (y n)) →
      ∀ n s, s.length < n → y n s = x n s

/-- Steps that make the agreement larger by a token can be repeated. -/
theorem Bottomless.of_step {ρ : Type}
    {F : Nat → (List (Located Token) → ρ) → List (Located Token) → ρ}
    {x : Nat → List (Located Token) → ρ} (hx : ∀ n, x (n + 1) = F n (x n))
    (hF : ∀ n y, (∀ s, s.length < n → y s = x n s) →
      ∀ s, s.length < n + 1 → F n y s = F n (x n) s) : Bottomless F x := by
  refine ⟨hx, fun y hy n => ?_⟩
  induction n with
  | zero => exact fun s hs => absurd hs (Nat.not_lt_zero _)
  | succ n ih =>
    rw [hx, hy]
    exact hF n (y n) ih

theorem params_bottomless : Bottomless (fun _ => paramsStep stop) (params stop) :=
  .of_step (fun _ => rfl) fun _ _ hy => paramsStep_agrees hy

theorem expr_bottomless : Bottomless (exprStep stop) (expr stop) :=
  .of_step (fun _ => rfl) fun _ _ hy => exprStep_agrees expr_progresses hy

section Loops

variable {inner : Reader (Tree Span)} (hinner : Progresses inner)

include hinner

theorem list_bottomless (close : Token) :
    Bottomless (fun _ => listStep stop inner close) (list stop inner close) :=
  .of_step (fun _ => rfl) fun n _ hy => listStep_agrees hinner (.refl _) hy (Nat.le_refl (n + 1))

theorem statements_bottomless (inBlock : Bool) :
    Bottomless (fun _ => statementsStep stop inner inBlock) (statements stop inner inBlock) :=
  .of_step (fun _ => rfl) fun _ _ hy => statementsStep_agrees hinner (.refl _) hy

theorem calls_bottomless (first : Nat) :
    Bottomless
      (fun n (again : List (Located Token) → Tree Span → Except (Located ParseCause) _) s head =>
        callsStep stop inner first n (fun t s => again s t) head s)
      (fun n s head => calls stop inner first head n s) := by
  refine .of_step (fun _ => rfl) fun n y hy s hs => funext fun head => ?_
  exact callsStep_agrees hinner (.refl _) (fun t s hs => congrFun (hy s hs) t)
    (Nat.le_refl (n + 1)) s hs

end Loops

/-- Statements that take the steps agree with those that are read, if the expressions in them do. -/
theorem statements_agrees_of_steps {inner : Reader (Tree Span)} {n : Nat}
    {z : Nat → Reader (List (Tree Span))} (hinner : Agrees n inner (expr stop n))
    (hz : ∀ m, z (m + 1) = statementsStep stop inner false (z m)) :
    ∀ m ≤ n, Agrees m (z m) (statements stop (expr stop n) false m) := by
  intro m hm
  induction m with
  | zero => exact fun _ hs => absurd hs (Nat.not_lt_zero _)
  | succ m ih =>
    rw [hz]
    exact statementsStep_agrees expr_progresses (hinner.mono hm) (ih (Nat.le_of_succ_le hm))

/-- Bounds larger than the number of tokens play no part. -/
theorem program_bound {s : List (Located Token)} {m n : Nat} (hm : s.length < m)
    (hn : s.length < n) : program stop m s = program stop n s := by
  obtain ⟨us, rest, r, rfl, -, hhalts⟩ := program_stops stop s
  have hrun : ∀ b, (us ++ rest).length < b → program stop b (us ++ rest) = verdict stop r rest :=
    fun b hb => hhalts b b b (Nat.le_refl b) (Nat.le_refl b) rest rfl hb
  rw [hrun m hm, hrun n hn]

/-! ### Nothing is looked at behind the end of the text -/

theorem verdict_map_fst {r : Except String α} {rest rest' : List (Located Token)}
    (h : rest'.head? = rest.head?) :
    (verdict stop r rest').map Prod.fst = (verdict stop r rest).map Prod.fst := by
  cases r with
  | ok a => rfl
  | error expected => cases rest <;> cases rest' <;> simp_all [verdict, unexpected, Except.map]

/-- The end of the text is not among the tokens that a reader has consumed. -/
theorem Fits.eof_not_mem {β γ : Type} {K : γ → Phrase} {ts : List Token} {r : Except String β}
    (h : Fits (Makes K) ts r) : .eof ∉ ts := by
  have hmakes : ∀ us, Makes K us → .eof ∉ us := by
    rintro us ⟨b, hb⟩ hmem
    simpa using (hb []).eof_mem (by simpa using hmem)
  cases r with
  | ok a => exact hmakes ts h
  | error expected =>
    obtain ⟨more, hmore⟩ := h
    exact fun hmem => hmakes _ hmore (List.mem_append_left _ hmem)

/-- Tokens behind the end of the text play no part for a reader that consumes a phrase. -/
theorem Stops.endOfText {γ : Type} {K : γ → Phrase} {x : Nat → Nat → Reader α} {n : Nat}
    {us more : List (Located Token)} {e : Located Token}
    (h : Stops stop (Makes K) x (us ++ e :: more)) (he : e.val = .eof)
    (hn : (us ++ e :: more).length < n) :
    (x n n (us ++ e :: more)).map Prod.fst = (x n n (us ++ [e])).map Prod.fst := by
  obtain ⟨used, rest, r, heq, hfits, hhalts⟩ := h
  have hused : e ∉ used := fun hmem =>
    hfits.eof_not_mem (he ▸ List.mem_map_of_mem hmem)
  -- what is consumed ends before the end of the text
  obtain ⟨us', rfl, rfl⟩ : ∃ us', us = used ++ us' ∧ rest = us' ++ e :: more := by
    rcases List.append_eq_append_iff.mp heq with ⟨c, rfl, hc⟩ | ⟨c, rfl, hc⟩
    · cases c with
      | nil => exact ⟨[], by simp, hc.symm⟩
      | cons t c =>
        obtain ⟨rfl, -⟩ := List.cons.inj hc
        exact absurd (by simp) hused
    · exact ⟨c, rfl, hc⟩
  have hhead : (us' ++ [e]).head? = (us' ++ e :: more).head? := by cases us' <;> rfl
  have hrun := hhalts n n n (Nat.le_refl n) (Nat.le_refl n)
  have hlen : (used ++ (us' ++ [e])).length < n := by
    simp only [List.length_append, List.length_cons, List.length_nil] at hn ⊢
    omega
  rw [List.append_assoc, List.append_assoc, hrun _ rfl (by rwa [← List.append_assoc]),
    hrun _ hhead hlen]
  exact (verdict_map_fst hhead).symm

end Reader

/-! ### The parser -/

open Reader

theorem parseTokens_endOfText {e : Located Token} (he : e.val = .eof)
    (us more : List (Located Token)) :
    parseTokens (us ++ e :: more) = parseTokens (us ++ [e]) := by
  have hlen : (us ++ [e]).length < (us ++ e :: more).length + 1 := by simp
  rw [parseTokens_eq_program, parseTokens_eq_program,
    (program_stops ⟨0, 0⟩ _).endOfText he (Nat.lt_succ_self _),
    program_bound hlen (Nat.lt_succ_self _)]

/-- The parser takes the steps of statements, and in them those of expressions, and does not come to
where the steps end. -/
theorem parseTokens_eq_steps {tokens : List (Located Token)} {n : Nat}
    {y : Nat → Reader (Tree Span)} {z : Nat → Reader (List (Tree Span))}
    (hn : (beforeEnd tokens).length < n)
    (hy : ∀ m, y (m + 1) = exprStep (endSpan tokens) m (y m))
    (hz : ∀ m, z (m + 1) = statementsStep (endSpan tokens) (y n) false (z m)) :
    parseTokens tokens = (programOf (endSpan tokens) (z n) (beforeEnd tokens)).map Prod.fst := by
  have hinner : Agrees n (y n) (expr (endSpan tokens) n) := expr_bottomless.2 y hy n
  have hstmts := statements_agrees_of_steps hinner hz n (Nat.le_refl n)
  have hprogram : Agrees n (programOf (endSpan tokens) (z n)) (program (endSpan tokens) n) :=
    .bind (.refl _) start_skips fun _ => hstmts.last
  rw [parseTokens_eq, hprogram _ hn, program_bound (beforeEnd_length_lt tokens) hn]

/-- **The parser comes to its end on all tokens.**  Each form that is read takes at least one token,
and never the end of the text.  Expressions inside expressions and all loops go on for fewer steps
than there are tokens, so what is done where the steps end plays no part, neither for them nor for a
whole program.  Tokens behind the first end of the text play no part either. -/
theorem parser_terminates :
    (∀ stop b n first,
      Progresses (statement stop (expr stop b)) ∧ Progresses (expr stop b) ∧
      Progresses (block stop (expr stop b) n first) ∧
      Progresses (function stop (expr stop b) n first) ∧
      Progresses (parenthesized stop (expr stop b) n first) ∧
      Progresses (array stop (expr stop b) n first)) ∧
    (∀ stop b,
      Bottomless (exprStep stop) (expr stop) ∧
      Bottomless (fun _ => paramsStep stop) (params stop) ∧
      (∀ close, Bottomless (fun _ => listStep stop (expr stop b) close)
        (list stop (expr stop b) close)) ∧
      (∀ inBlock, Bottomless (fun _ => statementsStep stop (expr stop b) inBlock)
        (statements stop (expr stop b) inBlock)) ∧
      ∀ first, Bottomless
        (fun n (again : List (Located Token) → Tree Span → Except (Located ParseCause) _) s head =>
          callsStep stop (expr stop b) first n (fun t s => again s t) head s)
        (fun n s head => calls stop (expr stop b) first head n s)) ∧
    (∀ tokens n (y : Nat → Reader (Tree Span)) (z : Nat → Reader (List (Tree Span))),
      (beforeEnd tokens).length < n →
      (∀ m, y (m + 1) = exprStep (endSpan tokens) m (y m)) →
      (∀ m, z (m + 1) = statementsStep (endSpan tokens) (y n) false (z m)) →
      parseTokens tokens = (programOf (endSpan tokens) (z n) (beforeEnd tokens)).map Prod.fst) ∧
    ∀ us e more, e.val = .eof →
      parseTokens (us ++ e :: more) = parseTokens (us ++ [e]) ∧
      ∀ stop n, (us ++ e :: more).length < n →
        (statement stop (expr stop n) (us ++ e :: more)).map Prod.fst =
          (statement stop (expr stop n) (us ++ [e])).map Prod.fst ∧
        (expr stop n (us ++ e :: more)).map Prod.fst =
          (expr stop n (us ++ [e])).map Prod.fst ∧
        (program stop n (us ++ e :: more)).map Prod.fst =
          (program stop n (us ++ [e])).map Prod.fst := by
  refine ⟨fun stop b n first => ?_, fun stop b => ?_,
    fun tokens n y z hn hy hz => parseTokens_eq_steps hn hy hz, fun us e more he => ?_⟩
  · have hinner : Progresses (expr stop b) := expr_progresses
    exact ⟨statement_progresses hinner, hinner, block_progresses hinner,
      function_progresses hinner, parenthesized_progresses hinner, array_progresses hinner⟩
  · have hinner : Progresses (expr stop b) := expr_progresses
    exact ⟨expr_bottomless, params_bottomless, list_bottomless hinner,
      statements_bottomless hinner, calls_bottomless hinner⟩
  · refine ⟨parseTokens_endOfText he us more, fun stop n hn => ⟨?_, ?_, ?_⟩⟩
    -- what is consumed never holds the end of the text, so nothing behind it is looked at
    · have hexpr : ∀ s : List (Located Token), s.length < n →
          Stops stop (Makes .expr) (fun b _ => expr stop b) s := fun s _ => expr_stops s
      exact (statement_stops hexpr _ hn).endOfText he hn
    · exact (expr_stops (us ++ e :: more)).endOfText he hn
    · exact (program_stops stop (us ++ e :: more)).endOfText he hn

end LetTyping
