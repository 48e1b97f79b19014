import LetTyping.Proofs.Readers

/-!
# What follows the grammar is read

The parser reads every phrase of the grammar in the reading that continues calls, so that it accepts
exactly what the grammar generates.  Each form of expression or statement has a lemma that puts its
reading together from the readings of its parts, and these are assembled by induction on the
derivation.

## Main definitions

* `Reader.Reads` — a reader succeeds, with a value that looks as given.
* `Reader.EndsAt`, `Reader.Boundary` — where statements end, and where a statement does not go on.
* `Phrase.Readable` — a phrase is read, wherever it stands.

## Main results

* `Generates.readable` — phrases that continue calls are read.
* `parseTokens_accepts` — **the parser accepts exactly its grammar.**
-/

namespace LetTyping

namespace Reader

variable {α β : Type} {s s' : List (Located Token)} {stop : Span} {bound : Nat}

/-! ### Steps -/

theorem bind_of_ok {x : Reader α} {f : α → Reader β} {a : α} (h : x s = .ok (a, s')) :
    (x >>= f) s = f a s' := by
  show (x s >>= fun p => f p.1 p.2) = f a s'
  rw [h]
  rfl

theorem exists_of_kinds {token : Token} {us : List Token} (h : kinds s = token :: us) :
    ∃ span s', s = ⟨token, span⟩ :: s' ∧ kinds s' = us := by
  obtain ⟨⟨_, span⟩, s', rfl, rfl, hs'⟩ := List.map_eq_cons_iff.mp h
  exact ⟨span, s', rfl, hs'⟩

theorem accept_here (token : Token) (span : Span) (s : List (Located Token)) :
    accept token (⟨token, span⟩ :: s) = .ok (some span, s) := if_pos rfl

theorem accept_other {token : Token} (h : (kinds s).head? ≠ some token) :
    accept token s = .ok (none, s) := by
  cases s with
  | nil => rfl
  | cons t rest => exact if_neg (by simpa using h)

theorem expect_here (token : Token) (span : Span) (s : List (Located Token)) :
    expect stop token (⟨token, span⟩ :: s) = .ok (span, s) := by
  rw [expect, bind_of_ok (accept_here token span s)]
  rfl

/-- The reader succeeds, with a value that looks like `v`, and leaves the tokens `rest`. -/
def Reads {γ : Type} (view : α → γ) (x : Reader α) (s : List (Located Token)) (v : γ)
    (rest : List Token) : Prop :=
  ∃ a s', x s = .ok (a, s') ∧ view a = v ∧ kinds s' = rest

theorem params_reads {names : List String} {us : List Token} (hne : names ≠ [])
    (h : kinds s = paramTokens names ++ .closeParen :: us) (hbound : names.length ≤ bound) :
    Reads id (params stop bound) s names us := by
  induction names generalizing s bound with
  | nil => exact absurd rfl hne
  | cons name names ih =>
    obtain ⟨bound, rfl⟩ := Nat.exists_eq_add_one.mpr (Nat.zero_lt_of_lt hbound)
    cases names with
    | nil =>
      -- the last parameter has the closing parenthesis behind it
      obtain ⟨_, s₁, rfl, hs₁⟩ := exists_of_kinds h
      obtain ⟨_, s₂, rfl, hs₂⟩ := exists_of_kinds hs₁
      refine ⟨_, s₂, ?_, rfl, hs₂⟩
      exact (bind_of_ok rfl).trans <| (bind_of_ok (accept_other (by simp))).trans <|
        (bind_of_ok (expect_here _ _ _)).trans rfl
    | cons name' names =>
      -- otherwise there is a comma, and more of them
      obtain ⟨_, s₁, rfl, hs₁⟩ := exists_of_kinds h
      obtain ⟨_, s₂, rfl, hs₂⟩ := exists_of_kinds hs₁
      obtain ⟨_, s₃, hnames, rfl, hs₃⟩ := ih (by simp) hs₂ (Nat.le_of_succ_le_succ hbound)
      refine ⟨_, s₃, ?_, rfl, hs₃⟩
      exact (bind_of_ok rfl).trans <| (bind_of_ok (accept_here _ _ _)).trans <|
        (bind_of_ok hnames).trans rfl

/-! ### Forms around expressions -/

section Forms

variable {inner : Reader (Tree Span)} {first : Nat} {t : Tree Unit} {es ss : List (Tree Unit)}
variable {us rest : List Token}

/-- The trees of a list with the span of its end, without labels. -/
def itemShapes (items : List (Tree Span) × Span) : List (Tree Unit) := items.1.map Tree.shape

theorem list_reads_nil {close : Token} (hs : kinds s = close :: rest) :
    Reads itemShapes (list stop inner close (bound + 1)) s [] rest := by
  obtain ⟨span, s₁, rfl, hs₁⟩ := exists_of_kinds hs
  exact ⟨([], span), s₁, (bind_of_ok (accept_here _ _ _)).trans rfl, rfl, hs₁⟩

theorem list_reads_last {close : Token} (hs : (kinds s).head? ≠ some close)
    (hclose : close ≠ .comma) (ht : Reads Tree.shape inner s t (close :: rest)) :
    Reads itemShapes (list stop inner close (bound + 1)) s [t] rest := by
  obtain ⟨t', s₁, ht', hshape, hs₁⟩ := ht
  obtain ⟨span, s₂, rfl, hs₂⟩ := exists_of_kinds hs₁
  refine ⟨([t'], span), s₂, ?_, by simp [itemShapes, hshape], hs₂⟩
  exact (bind_of_ok (accept_other hs)).trans <| (bind_of_ok ht').trans <|
    (bind_of_ok (accept_other (by simpa using hclose))).trans <|
    (bind_of_ok (expect_here _ _ _)).trans rfl

theorem list_reads_cons {close : Token} (hs : (kinds s).head? ≠ some close)
    (ht : Reads Tree.shape inner s t (.comma :: us))
    (hes : ∀ s₁, kinds s₁ = us → Reads itemShapes (list stop inner close bound) s₁ es rest) :
    Reads itemShapes (list stop inner close (bound + 1)) s (t :: es) rest := by
  obtain ⟨t', s₁, ht', hshape, hs₁⟩ := ht
  obtain ⟨_, s₂, rfl, hs₂⟩ := exists_of_kinds hs₁
  obtain ⟨⟨es', closing⟩, s₃, hes', hshapes, hs₃⟩ := hes s₂ hs₂
  refine ⟨(t' :: es', closing), s₃, ?_, by simp [itemShapes, hshape, ← hshapes], hs₃⟩
  exact (bind_of_ok (accept_other hs)).trans <| (bind_of_ok ht').trans <|
    (bind_of_ok (accept_here _ _ _)).trans <| (bind_of_ok hes').trans rfl

theorem parenthesized_reads_unit (hs : kinds s = .closeParen :: rest) :
    Reads Tree.shape (parenthesized stop inner bound first) s (.tuple () []) rest := by
  obtain ⟨span, s₁, rfl, hs₁⟩ := exists_of_kinds hs
  exact ⟨_, s₁, (bind_of_ok (accept_here _ _ _)).trans rfl, Tree.shape_tuple _ _, hs₁⟩

theorem parenthesized_reads_group (hs : (kinds s).head? ≠ some .closeParen)
    (ht : Reads Tree.shape inner s t (.closeParen :: rest)) :
    Reads Tree.shape (parenthesized stop inner bound first) s t rest := by
  obtain ⟨t', s₁, ht', hshape, hs₁⟩ := ht
  obtain ⟨_, s₂, rfl, hs₂⟩ := exists_of_kinds hs₁
  refine ⟨t', s₂, ?_, hshape, hs₂⟩
  exact (bind_of_ok (accept_other hs)).trans <| (bind_of_ok ht').trans <|
    (bind_of_ok (accept_here _ _ _)).trans rfl

theorem parenthesized_reads_tuple (hs : (kinds s).head? ≠ some .closeParen)
    (ht : Reads Tree.shape inner s t (.comma :: us))
    (hes : ∀ s₁, kinds s₁ = us → Reads itemShapes (list stop inner .closeParen bound) s₁ es rest) :
    Reads Tree.shape (parenthesized stop inner bound first) s (.tuple () (t :: es)) rest := by
  obtain ⟨t', s₁, ht', hshape, hs₁⟩ := ht
  obtain ⟨_, s₂, rfl, hs₂⟩ := exists_of_kinds hs₁
  obtain ⟨⟨es', closing⟩, s₃, hes', hshapes, hs₃⟩ := hes s₂ hs₂
  refine ⟨.tuple ⟨first, closing.stop⟩ (t' :: es'), s₃, ?_, ?_, hs₃⟩
  · exact (bind_of_ok (accept_other hs)).trans <| (bind_of_ok ht').trans <|
      (bind_of_ok (accept_other (by simp))).trans <| (bind_of_ok (expect_here _ _ _)).trans <|
      (bind_of_ok hes').trans rfl
  · simp [hshape, ← hshapes, itemShapes]

theorem array_reads (hes : Reads itemShapes (list stop inner .closeBracket bound) s es rest) :
    Reads Tree.shape (array stop inner bound first) s (.array () es) rest := by
  obtain ⟨⟨es', closing⟩, s₁, hes', rfl, hs₁⟩ := hes
  exact ⟨_, s₁, (bind_of_ok hes').trans rfl, Tree.shape_array _ _, hs₁⟩

theorem function_reads {names : List String} (hbound : names.length ≤ bound)
    (hs : kinds s = .openParen :: (paramTokens names ++ .closeParen :: us))
    (ht : ∀ s₁, kinds s₁ = us → Reads Tree.shape inner s₁ t rest) :
    Reads Tree.shape (function stop inner bound first) s (.fn () names t) rest := by
  obtain ⟨_, s₁, rfl, hs₁⟩ := exists_of_kinds hs
  cases names with
  | nil =>
    obtain ⟨_, s₂, rfl, hs₂⟩ := exists_of_kinds hs₁
    obtain ⟨t', s₃, ht', rfl, hs₃⟩ := ht s₂ hs₂
    refine ⟨.fn ⟨first, t'.label.stop⟩ [] t', s₃, ?_, Tree.shape_fn _ _ _, hs₃⟩
    exact (bind_of_ok (expect_here _ _ _)).trans <| (bind_of_ok (accept_here _ _ _)).trans <|
      (bind_of_ok rfl).trans <| (bind_of_ok ht').trans rfl
  | cons name names =>
    have hparams : Reads id (params stop bound) s₁ (name :: names) us :=
      params_reads (by simp) hs₁ hbound
    obtain ⟨_, s₂, hnames, rfl, hs₂⟩ := hparams
    obtain ⟨t', s₃, ht', rfl, hs₃⟩ := ht s₂ hs₂
    -- a parameter is no closing parenthesis
    have hopen : (kinds s₁).head? ≠ some .closeParen := by
      cases names <;> simp [hs₁, paramTokens]
    refine ⟨.fn ⟨first, t'.label.stop⟩ (name :: names) t', s₃, ?_, Tree.shape_fn _ _ _, hs₃⟩
    exact (bind_of_ok (expect_here _ _ _)).trans <| (bind_of_ok (accept_other hopen)).trans <|
      (bind_of_ok hnames).trans <| (bind_of_ok ht').trans rfl

theorem block_reads (hss : Reads (List.map Tree.shape) (statements stop inner true bound) s ss
    (.closeBrace :: rest)) :
    Reads Tree.shape (block stop inner bound first) s (.block () ss) rest := by
  obtain ⟨ss', s₁, hss', rfl, hs₁⟩ := hss
  obtain ⟨closing, s₂, rfl, hs₂⟩ := exists_of_kinds hs₁
  refine ⟨.block ⟨first, closing.stop⟩ ss', s₂, ?_, Tree.shape_block _ _, hs₂⟩
  exact (bind_of_ok hss').trans <| (bind_of_ok (expect_here _ _ _)).trans rfl

theorem calls_reads_done {head : Tree Span} (hs : NoCall (kinds s)) :
    Reads Tree.shape (calls stop inner first head (bound + 1)) s head.shape (kinds s) :=
  ⟨head, s, (bind_of_ok (accept_other hs)).trans rfl, rfl, rfl⟩

theorem calls_reads_call {head : Tree Span} (hs : kinds s = .openParen :: ts)
    (hes : ∀ s₁, kinds s₁ = ts → Reads itemShapes (list stop inner .closeParen bound) s₁ es us)
    (ht : ∀ s₂ call, kinds s₂ = us → call.shape = .apply () head.shape (.tuple () es) →
      Reads Tree.shape (calls stop inner first call bound) s₂ t rest) :
    Reads Tree.shape (calls stop inner first head (bound + 1)) s t rest := by
  obtain ⟨opening, s₁, rfl, hs₁⟩ := exists_of_kinds hs
  obtain ⟨⟨es', closing⟩, s₂, hes', rfl, hs₂⟩ := hes s₁ hs₁
  obtain ⟨t', s₃, ht', hshape, hs₃⟩ := ht s₂ (.apply ⟨first, closing.stop⟩ head
    (.tuple ⟨opening.start, closing.stop⟩ es')) hs₂ (by simp [itemShapes])
  refine ⟨t', s₃, ?_, hshape, hs₃⟩
  exact (bind_of_ok (accept_here _ _ _)).trans <| (bind_of_ok hes').trans ht'

theorem expr_reads {head : Tree Unit}
    (hhead : Reads Tree.shape (primary stop (expr stop bound) bound) s head us)
    (ht : ∀ s₁ first head', kinds s₁ = us → head'.shape = head →
      Reads Tree.shape (calls stop (expr stop bound) first head' bound) s₁ t rest) :
    Reads Tree.shape (expr stop (bound + 1)) s t rest := by
  obtain ⟨head', s₁, hhead', hshape, hs₁⟩ := hhead
  obtain ⟨t', s₂, ht', hshape', hs₂⟩ := ht s₁ _ head' hs₁ hshape
  exact ⟨t', s₂, (bind_of_ok rfl).trans <| (bind_of_ok hhead').trans ht', hshape', hs₂⟩

theorem declaration_reads {name : String} (hs : kinds s = .ident name :: .equals :: us)
    (ht : ∀ s₁, kinds s₁ = us → Reads Tree.shape inner s₁ t rest) :
    Reads Tree.shape (declaration stop inner first) s (.decl () name t) rest := by
  obtain ⟨_, s₁, rfl, hs₁⟩ := exists_of_kinds hs
  obtain ⟨_, s₂, rfl, hs₂⟩ := exists_of_kinds hs₁
  obtain ⟨t', s₃, ht', rfl, hs₃⟩ := ht s₂ hs₂
  refine ⟨.decl ⟨first, t'.label.stop⟩ name t', s₃, ?_, Tree.shape_decl _ _ _, hs₃⟩
  exact (bind_of_ok rfl).trans <| (bind_of_ok (expect_here _ _ _)).trans <|
    (bind_of_ok ht').trans rfl

theorem returned_reads (ht : Reads Tree.shape inner s t rest) :
    Reads Tree.shape (returned inner first) s (.ret () t) rest := by
  obtain ⟨t', s₁, ht', rfl, hs₁⟩ := ht
  exact ⟨.ret ⟨first, t'.label.stop⟩ t', s₁, (bind_of_ok ht').trans rfl, Tree.shape_ret _ _, hs₁⟩

theorem assigned_reads {name : String} (ht : Reads Tree.shape inner s t rest) :
    Reads Tree.shape (assigned inner first name) s (.assign () name t) rest := by
  obtain ⟨t', s₁, ht', rfl, hs₁⟩ := ht
  exact ⟨.assign ⟨first, t'.label.stop⟩ name t', s₁, (bind_of_ok ht').trans rfl,
    Tree.shape_assign _ _ _, hs₁⟩

/-- What starts like an expression and not like an assignment is read as an expression. -/
theorem bareStatement_eq {token : Token} (hs : kinds s = token :: us)
    (htoken : token.startsExpr = true)
    (hassign : ∀ name, token = .ident name → us.head? ≠ some .equals) :
    bareStatement stop inner s = inner s := by
  unfold bareStatement
  split
  · cases hs
    cases htoken
  · cases hs
    cases htoken
  · cases hs
    exact absurd rfl (hassign _ rfl)
  · rfl

theorem statement_reads_plain (hrest : rest.head? ≠ some .semicolon)
    (ht : Reads Tree.shape (bareStatement stop inner) s t rest) :
    Reads Tree.shape (statement stop inner) s t rest := by
  obtain ⟨t', s₁, ht', hshape, rfl⟩ := ht
  refine ⟨t', s₁, ?_, hshape, rfl⟩
  exact (bind_of_ok ht').trans <| (bind_of_ok (accept_other hrest)).trans rfl

theorem statement_reads_ended
    (ht : Reads Tree.shape (bareStatement stop inner) s t (.semicolon :: rest)) :
    Reads Tree.shape (statement stop inner) s t rest := by
  obtain ⟨t', s₁, ht', hshape, hs₁⟩ := ht
  obtain ⟨_, s₂, rfl, hs₂⟩ := exists_of_kinds hs₁
  refine ⟨t', s₂, ?_, hshape, hs₂⟩
  exact (bind_of_ok ht').trans <| (bind_of_ok (accept_here _ _ _)).trans rfl

/-- Statements end before these tokens. -/
def EndsAt (inBlock : Bool) (rest : List Token) : Prop :=
  rest = [] ∨ rest.head? = some .eof ∨ inBlock = true ∧ rest.head? = some .closeBrace

theorem statementsEnd_iff {inBlock : Bool} :
    statementsEnd inBlock s = true ↔ EndsAt inBlock (kinds s) := by
  cases s <;> simp [statementsEnd, EndsAt]

/-- The tokens do not go on with a statement that ended before them. -/
def Boundary (rest : List Token) : Prop :=
  rest.head? ≠ some .semicolon ∧ rest.head? ≠ some .equals

theorem EndsAt.boundary {inBlock : Bool} (h : EndsAt inBlock rest) : Boundary rest := by
  rcases h with rfl | h | ⟨-, h⟩
  · simp [Boundary]
  · simp [Boundary, h]
  · simp [Boundary, h]

theorem statements_reads_end {inBlock : Bool} (hs : EndsAt inBlock (kinds s)) :
    Reads (List.map Tree.shape) (statements stop inner inBlock (bound + 1)) s [] (kinds s) := by
  refine ⟨[], s, ?_, rfl, rfl⟩
  exact (bind_of_ok rfl).trans (congrFun (if_pos (statementsEnd_iff.mpr hs)) s)

theorem statements_reads_next {inBlock : Bool} (hs : ¬ EndsAt inBlock (kinds s))
    (ht : Reads Tree.shape (statement stop inner) s t us)
    (hss : ∀ s₁, kinds s₁ = us →
      Reads (List.map Tree.shape) (statements stop inner inBlock bound) s₁ ss rest) :
    Reads (List.map Tree.shape) (statements stop inner inBlock (bound + 1)) s (t :: ss) rest := by
  obtain ⟨t', s₁, ht', hshape, hs₁⟩ := ht
  obtain ⟨ss', s₂, hss', hshapes, hs₂⟩ := hss s₁ hs₁
  refine ⟨t' :: ss', s₂, ?_, by simp [hshape, hshapes], hs₂⟩
  exact (bind_of_ok rfl).trans <| (congrFun (if_neg (mt statementsEnd_iff.mp hs)) s).trans <|
    (bind_of_ok ht').trans <| (bind_of_ok hss').trans rfl

end Forms

end Reader

/-! ### Phrases -/

namespace Phrase

open Reader

/-- The phrase is read from the tokens `ts`, wherever they stand, with any bound that is larger than
their number, if what is left does not go on with it. -/
def Readable (stop : Span) : Phrase → List Token → List Token → Prop
  | primary t, ts, rest => ∀ bound s, kinds s = ts → ts.length ≤ bound →
    Reads Tree.shape (Reader.primary stop (Reader.expr stop bound) bound) s t rest
  | calls head t, ts, rest => ∀ bound n first head' s, kinds s = ts → head'.shape = head →
    ts.length < bound → ts.length < n →
    Reads Tree.shape (Reader.calls stop (Reader.expr stop bound) first head' n) s t rest
  | expr t, ts, rest => ∀ bound s, kinds s = ts → ts.length < bound →
    Reads Tree.shape (Reader.expr stop bound) s t rest
  | list es, ts, rest => ∀ close rest', rest = close :: rest' → close.startsExpr = false →
    close ≠ .comma → ∀ bound n s, kinds s = ts → ts.length < bound → ts.length < n →
    Reads itemShapes (Reader.list stop (Reader.expr stop bound) close n) s es rest'
  | bare t, ts, rest => rest.head? ≠ some .equals → ∀ bound s, kinds s = ts → ts.length < bound →
    Reads Tree.shape (bareStatement stop (Reader.expr stop bound)) s t rest
  | stmt t, ts, rest => Boundary rest → ∀ bound s, kinds s = ts → ts.length < bound →
    Reads Tree.shape (statement stop (Reader.expr stop bound)) s t rest
  | stmts ss, ts, rest => ∀ inBlock, EndsAt inBlock rest → ∀ bound n s, kinds s = ts →
    ts.length < bound → ts.length < n →
    Reads (List.map Tree.shape) (statements stop (Reader.expr stop bound) inBlock n) s ss rest

end Phrase

namespace Generates

open Reader

variable {follow : List Token → Prop} {t : Tree Unit} {ss : List (Tree Unit)}
variable {ts us rest : List Token}

/-- An equals sign behind a name does not belong to an expression. -/
theorem expr_ident_equals {x : String}
    (h : Generates follow (.expr t) (.ident x :: .equals :: us) rest) : rest = .equals :: us := by
  cases h with
  | expr hhead hcalls =>
    cases hhead
    cases hcalls
    rfl

/-- Statements do not start with a token that goes on with the statement before them. -/
theorem boundary (h : Generates follow (.stmts ss) ts rest) (hrest : Boundary rest) :
    Boundary ts := by
  cases h with
  | noStmt => exact hrest
  | next hs _ =>
    obtain ⟨first, us, rfl, hfirst, -⟩ := hs.takes
    constructor <;> rintro ⟨⟩ <;> simp [Token.startsStatement, Token.startsExpr] at hfirst

/-- No statement starts where statements end. -/
theorem not_endsAt {inBlock : Bool} (h : Generates follow (.stmt t) ts rest) :
    ¬ EndsAt inBlock ts := by
  obtain ⟨first, us, rfl, hfirst, -⟩ := h.takes
  rintro (⟨⟨⟩⟩ | ⟨⟨⟩⟩ | ⟨-, ⟨⟩⟩) <;> simp [Token.startsStatement, Token.startsExpr] at hfirst

/-- **What follows the grammar and continues calls is read.** -/
theorem readable {ph : Phrase} (stop : Span) (h : Generates NoCall ph ts rest) :
    ph.Readable stop ts rest := by
  induction h with
  | int =>
    intro bound s hs _
    obtain ⟨span, s₁, rfl, hs₁⟩ := exists_of_kinds hs
    exact ⟨_, s₁, rfl, Tree.shape_int _ _, hs₁⟩
  | var =>
    intro bound s hs _
    obtain ⟨span, s₁, rfl, hs₁⟩ := exists_of_kinds hs
    exact ⟨_, s₁, rfl, Tree.shape_var _ _, hs₁⟩
  | unit =>
    intro bound s hs _
    obtain ⟨span, s₁, rfl, hs₁⟩ := exists_of_kinds hs
    exact parenthesized_reads_unit hs₁
  | group ht ih =>
    intro bound s hs hbound
    obtain ⟨span, s₁, rfl, hs₁⟩ := exists_of_kinds hs
    exact parenthesized_reads_group (hs₁ ▸ ht.head_ne rfl) (ih bound s₁ hs₁ hbound)
  | tuple ht _ ih₁ ih₂ =>
    intro bound s hs hbound
    obtain ⟨span, s₁, rfl, hs₁⟩ := exists_of_kinds hs
    -- the elements behind the first one are fewer tokens, so the bound is enough for them
    have hlen := ht.expr_length_lt
    simp only [List.length_cons] at hbound hlen
    refine parenthesized_reads_tuple (hs₁ ▸ ht.head_ne rfl) (ih₁ bound s₁ hs₁ hbound) ?_
    exact fun s₂ hs₂ => ih₂ _ _ rfl rfl (by simp) bound bound s₂ hs₂ (by omega) (by omega)
  | array _ ih =>
    intro bound s hs hbound
    obtain ⟨span, s₁, rfl, hs₁⟩ := exists_of_kinds hs
    exact array_reads (ih _ _ rfl rfl (by simp) bound bound s₁ hs₁ hbound hbound)
  | @fn xs body ts rest _ ih =>
    intro bound s hs hbound
    obtain ⟨span, s₁, rfl, hs₁⟩ := exists_of_kinds hs
    simp only [List.length_cons, List.length_append] at hbound
    have hxs : xs.length ≤ (paramTokens xs).length := by
      simp [paramTokens]
      omega
    exact function_reads (by omega) hs₁ fun s₂ hs₂ => ih bound s₂ hs₂ (by omega)
  | block _ ih =>
    intro bound s hs hbound
    obtain ⟨span, s₁, rfl, hs₁⟩ := exists_of_kinds hs
    exact block_reads (ih true (.inr (.inr ⟨rfl, rfl⟩)) bound bound s₁ hs₁ hbound hbound)
  | noCall hrest =>
    intro bound n first head s hs hhead _ hn
    obtain ⟨n, rfl⟩ := Nat.exists_eq_add_one.mpr (Nat.zero_lt_of_lt hn)
    subst hs hhead
    exact calls_reads_done hrest
  | call hes _ ih₁ ih₂ =>
    intro bound n first head s hs hhead hbound hn
    obtain ⟨n, rfl⟩ := Nat.exists_eq_add_one.mpr (Nat.zero_lt_of_lt hn)
    have hlen := hes.takes
    simp only [Phrase.Takes, List.length_cons] at hbound hn hlen
    refine calls_reads_call hs (fun s₁ hs₁ => ih₁ _ _ rfl rfl (by simp) bound n s₁ hs₁ (by omega)
      (by omega)) fun s₂ call hs₂ hcall => ?_
    exact ih₂ bound n first call s₂ hs₂ (hhead ▸ hcall) (by omega) (by omega)
  | expr hhead _ ih₁ ih₂ =>
    intro bound s hs hbound
    obtain ⟨bound, rfl⟩ := Nat.exists_eq_add_one.mpr (Nat.zero_lt_of_lt hbound)
    have hlen := hhead.primary_length_lt
    refine expr_reads (ih₁ bound s hs (by omega)) fun s₁ first head hs₁ hshape => ?_
    exact ih₂ bound bound first head s₁ hs₁ hshape (by omega) (by omega)
  | noItem =>
    rintro close rest' rfl _ _ bound n s hs _ hn
    obtain ⟨n, rfl⟩ := Nat.exists_eq_add_one.mpr (Nat.zero_lt_of_lt hn)
    exact list_reads_nil hs
  | lastItem ht ih =>
    rintro close rest' rfl hclose hcomma bound n s hs hbound hn
    obtain ⟨n, rfl⟩ := Nat.exists_eq_add_one.mpr (Nat.zero_lt_of_lt hn)
    exact list_reads_last (hs ▸ ht.head_ne hclose) hcomma (ih bound s hs hbound)
  | item ht _ ih₁ ih₂ =>
    intro close rest' hrest hclose hcomma bound n s hs hbound hn
    obtain ⟨n, rfl⟩ := Nat.exists_eq_add_one.mpr (Nat.zero_lt_of_lt hn)
    have hlen := ht.expr_length_lt
    simp only [List.length_cons] at hlen
    refine list_reads_cons (hs ▸ ht.head_ne hclose) (ih₁ bound s hs hbound) fun s₁ hs₁ => ?_
    exact ih₂ close rest' hrest hclose hcomma bound n s₁ hs₁ (by omega) (by omega)
  | decl _ ih =>
    intro _ bound s hs hbound
    obtain ⟨span, s₁, rfl, hs₁⟩ := exists_of_kinds hs
    simp only [List.length_cons] at hbound
    exact declaration_reads hs₁ fun s₂ hs₂ => ih bound s₂ hs₂ (by omega)
  | ret _ ih =>
    intro _ bound s hs hbound
    obtain ⟨span, s₁, rfl, hs₁⟩ := exists_of_kinds hs
    exact returned_reads (ih bound s₁ hs₁ (Nat.lt_of_succ_lt hbound))
  | assign _ ih =>
    intro _ bound s hs hbound
    obtain ⟨span, s₁, rfl, hs₁⟩ := exists_of_kinds hs
    obtain ⟨span', s₂, rfl, hs₂⟩ := exists_of_kinds hs₁
    simp only [List.length_cons] at hbound
    exact assigned_reads (ih bound s₂ hs₂ (by omega))
  | value ht ih =>
    intro hrest bound s hs hbound
    obtain ⟨token, us, rfl, htoken, -⟩ := ht.takes
    rw [Reads, bareStatement_eq hs htoken]
    · exact ih bound s hs hbound
    -- an equals sign behind a name would be left over, but nothing goes on with it
    · rintro name rfl hequals
      obtain ⟨us, rfl⟩ := List.head?_eq_some_iff.mp hequals
      exact hrest (by rw [ht.expr_ident_equals]; rfl)
  | plain _ ih =>
    intro hrest bound s hs hbound
    exact statement_reads_plain hrest.1 (ih hrest.2 bound s hs hbound)
  | ended _ ih =>
    intro hrest bound s hs hbound
    exact statement_reads_ended (ih (by simp) bound s hs hbound)
  | noStmt =>
    rintro inBlock hend bound n s rfl _ hn
    obtain ⟨n, rfl⟩ := Nat.exists_eq_add_one.mpr (Nat.zero_lt_of_lt hn)
    exact statements_reads_end hend
  | next ht hss ih₁ ih₂ =>
    rintro inBlock hend bound n s rfl hbound hn
    obtain ⟨n, rfl⟩ := Nat.exists_eq_add_one.mpr (Nat.zero_lt_of_lt hn)
    have hlen := ht.stmt_length_lt
    -- what follows starts a statement or ends them all, so this statement does not go on
    refine statements_reads_next ht.not_endsAt
      (ih₁ (hss.boundary hend.boundary) bound s rfl hbound) fun s₁ hs₁ => ?_
    exact ih₂ inBlock hend bound n s₁ hs₁ (by omega) (by omega)

end Generates

/-! ### Programs -/

theorem Reader.program_reads {stop : Span} {bound : Nat} {ss : List (Tree Unit)}
    {body : List (Located Token)} (h : Generates NoCall (.stmts ss) (kinds body) [])
    (hbound : body.length < bound) :
    Reads Tree.shape (program stop bound) body (.block () ss) [] := by
  have hlen : (kinds body).length < bound := by simpa using hbound
  obtain ⟨ss', s', hss', rfl, hs'⟩ :=
    h.readable stop false (.inl rfl) bound bound body rfl hlen hlen
  exact ⟨_, s', (bind_of_ok rfl).trans <| (bind_of_ok hss').trans rfl, Tree.shape_block _ _, hs'⟩

section Programs

variable {body : List (Located Token)} {stop : Located Token}
variable (hbody : ∀ token ∈ body, token.val ≠ .eof) (hstop : stop.val = .eof)

include hbody hstop

/-- The parser reads the tokens before the end of the text. -/
theorem parseTokens_body : parseTokens (body ++ [stop]) =
    (Reader.program stop.span (body.length + 2) body).map Prod.fst := by
  rw [parseTokens_eq, endSpan_of_end hbody hstop, beforeEnd_of_end hbody hstop,
    List.length_append, List.length_singleton]

theorem parseTokens_ok_iff {t : Tree Span} : parseTokens (body ++ [stop]) = .ok t ↔
    ∃ s', Reader.program stop.span (body.length + 2) body = .ok (t, s') := by
  rw [parseTokens_body hbody hstop]
  cases Reader.program stop.span (body.length + 2) body with
  | error e => simp [Except.map]
  | ok r =>
    obtain ⟨t', s'⟩ := r
    simp [Except.map]

/-- Statements that continue calls are read. -/
theorem parseTokens_of_generates {ss : List (Tree Unit)}
    (h : Generates NoCall (.stmts ss) (kinds body) []) :
    ∃ t, parseTokens (body ++ [stop]) = .ok t ∧ t.shape = .block () ss := by
  have hprogram : Reader.Reads Tree.shape (Reader.program stop.span (body.length + 2)) body
    (.block () ss) [] := Reader.program_reads h (by omega)
  obtain ⟨t, s', ht, hshape, -⟩ := hprogram
  exact ⟨t, (parseTokens_ok_iff hbody hstop).mpr ⟨s', ht⟩, hshape⟩

/-- What is read are statements that continue calls. -/
theorem generates_of_parseTokens {t : Tree Span} (h : parseTokens (body ++ [stop]) = .ok t) :
    ∃ ss, t.shape = .block () ss ∧ Generates NoCall (.stmts ss) (kinds body) [] := by
  obtain ⟨s', hs'⟩ := (parseTokens_ok_iff hbody hstop).mp h
  exact Reader.program_ok hbody hs'

/-- **The parser accepts exactly what the grammar generates, and gives the one reading in which
every parenthesis that can continue a call does so.** -/
theorem parseTokens_accepts :
    ((∃ t, parseTokens (body ++ [stop]) = .ok t) ↔
      ∃ ss, Generates AnyFollow (.stmts ss) (kinds body) []) ∧
    ∀ t, parseTokens (body ++ [stop]) = .ok t → ∃ ss, t.shape = .block () ss ∧
      ∀ ss', Generates NoCall (.stmts ss') (kinds body) [] ↔ ss' = ss := by
  refine ⟨⟨?_, ?_⟩, ?_⟩
  · rintro ⟨t, ht⟩
    obtain ⟨ss, -, hss⟩ := generates_of_parseTokens hbody hstop ht
    exact ⟨ss, hss.mono fun _ _ => trivial⟩
  · rintro ⟨ss, hss⟩
    obtain ⟨ss', hss'⟩ := hss.exists_noCall
    obtain ⟨t, ht, -⟩ := parseTokens_of_generates hbody hstop hss'
    exact ⟨t, ht⟩
  · intro t ht
    obtain ⟨ss, hshape, hss⟩ := generates_of_parseTokens hbody hstop ht
    refine ⟨ss, hshape, fun ss' => ⟨fun hss' => ?_, fun h => h ▸ hss⟩⟩
    -- another such reading would be what the parser gives, too
    obtain ⟨t', ht', hshape'⟩ := parseTokens_of_generates hbody hstop hss'
    cases ht.symm.trans ht'
    cases hshape.symm.trans hshape'
    rfl

end Programs

/-- A parenthesis behind a name: the next statement for the grammar, a call for the parser. -/
theorem parseTokens_accepts_call :
    let tokens : List Token := [.ident "f", .openParen, .ident "x", .closeParen]
    let body : List (Located Token) := tokens.map fun token => ⟨token, ⟨0, 0⟩⟩
    let stop : Located Token := ⟨.eof, ⟨0, 0⟩⟩
    let f : Tree Unit := .var () "f"
    let x : Tree Unit := .var () "x"
    (∃ t, parseTokens (body ++ [stop]) = .ok t) ∧
      Generates AnyFollow (.stmts [f, x]) (kinds body) [] ∧
      ∀ ss, Generates NoCall (.stmts ss) (kinds body) [] ↔ ss = [.apply () f (.tuple () [x])] := by
  intro tokens body stop f x
  have hbody : ∀ token ∈ body, token.val ≠ .eof := by decide
  have hstop : stop.val = .eof := rfl
  obtain ⟨haccepts, hreading⟩ := parseTokens_accepts hbody hstop
  -- the grammar may take the parenthesis for a statement of its own
  have hf : Generates AnyFollow (.stmt f) (kinds body) (kinds (body.drop 1)) :=
    .plain (.value (.expr .var (.noCall trivial)))
  have hx : Generates AnyFollow (.stmt x) (kinds (body.drop 1)) [] :=
    .plain (.value (.expr (.group (.expr .var (.noCall trivial))) (.noCall trivial)))
  have htwo : Generates AnyFollow (.stmts [f, x]) (kinds body) [] := .next hf (.next hx .noStmt)
  obtain ⟨ss, hshape, hss⟩ := hreading _ rfl
  cases hshape
  exact ⟨haccepts.mpr ⟨_, htwo⟩, htwo, hss⟩

end LetTyping
