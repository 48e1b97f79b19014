import LetTyping.Proofs.Grammar

/-!
# Beginnings of phrases

Tokens that are not yet a phrase may be the beginning of one.  The phrases of each kind are a set of
token sequences, and the rules of the grammar say how the sets are put together; what begins a part
of a phrase, behind the parts before it, then begins the phrase.

## Main definitions

* `Makes`, `MakesItems`, `MakesArguments`, `MakesParams` — the token sequences of phrases.
* `Begins` — tokens begin a sequence of a set.

## Main results

* `Makes.group`, `Makes.fn`, `MakesItems.cons`, … — the rules of the grammar.
* `Begins.inside` — what begins a part of a phrase begins the phrase.
-/

namespace LetTyping

/-- The tokens are a phrase of the kind `K`, whatever follows them. -/
def Makes {β : Type} (K : β → Phrase) (ts : List Token) : Prop :=
  ∃ b, ∀ rest, Generates AnyFollow (K b) (ts ++ rest) rest

/-- The tokens are a list up to the token `close`, and this token. -/
def MakesItems (close : Token) (ts : List Token) : Prop :=
  ∃ es, ∀ rest, Generates AnyFollow (.list es) (ts ++ rest) (close :: rest)

/-- The tokens are argument lists behind any expression. -/
def MakesArguments (ts : List Token) : Prop := ∀ head, Makes (.calls head) ts

/-- The tokens are parameters, at least one of them, up to the closing parenthesis, and this. -/
def MakesParams (ts : List Token) : Prop :=
  ∃ names, names ≠ [] ∧ ts = paramTokens names ++ [.closeParen]

/-- The tokens begin a sequence of the set `L`. -/
def Begins (L : List Token → Prop) (ts : List Token) : Prop := ∃ more, L (ts ++ more)

namespace Begins

variable {L L' : List Token → Prop} {ts us : List Token}

theorem of_append (more : List Token) (h : L (ts ++ more)) : Begins L ts := ⟨more, h⟩

theorem of_all (h : L ts) : Begins L ts := ⟨[], by rwa [List.append_nil]⟩

/-- What begins a part of a phrase begins the phrase, behind the tokens before the part. -/
theorem inside (ts : List Token) (h : Begins L us) (hpart : ∀ vs, L vs → Begins L' (ts ++ vs)) :
    Begins L' (ts ++ us) := by
  obtain ⟨more, h⟩ := h
  obtain ⟨more', h'⟩ := hpart _ h
  refine ⟨more ++ more', ?_⟩
  simpa using h'

end Begins

/-! ### Expressions -/

section Expressions

variable {ts us : List Token}

theorem Makes.primary_ne_nil (h : Makes .primary ts) : ts ≠ [] := by
  rintro rfl
  obtain ⟨t, ht⟩ := h
  exact Nat.lt_irrefl _ (ht []).primary_length_lt

theorem makes_int (v : Int) : Makes .primary [.int v] := ⟨_, fun _ => .int⟩

theorem makes_var (x : String) : Makes .primary [.ident x] := ⟨_, fun _ => .var⟩

theorem makes_unit : Makes .primary [.openParen, .closeParen] := ⟨_, fun _ => .unit⟩

theorem Makes.group (h : Makes .expr ts) :
    Makes .primary (.openParen :: (ts ++ [.closeParen])) := by
  obtain ⟨t, ht⟩ := h
  exact ⟨t, fun rest => by simpa using Generates.group (ht (.closeParen :: rest))⟩

theorem Makes.tuple (h : Makes .expr ts) (h' : MakesItems .closeParen us) :
    Makes .primary (.openParen :: (ts ++ .comma :: us)) := by
  obtain ⟨t, ht⟩ := h
  obtain ⟨es, hes⟩ := h'
  exact ⟨_, fun rest => by simpa using Generates.tuple (ht (.comma :: (us ++ rest))) (hes rest)⟩

theorem MakesItems.array (h : MakesItems .closeBracket ts) :
    Makes .primary (.openBracket :: ts) := by
  obtain ⟨es, hes⟩ := h
  exact ⟨_, fun rest => .array (hes rest)⟩

theorem Makes.fn (xs : List String) (h : Makes .expr ts) :
    Makes .primary (.fnWord :: .openParen :: (paramTokens xs ++ .closeParen :: ts)) := by
  obtain ⟨t, ht⟩ := h
  exact ⟨.fn () xs t, fun rest => by simpa using Generates.fn (ht rest)⟩

theorem Makes.block (h : Makes .stmts ts) :
    Makes .primary (.openBrace :: (ts ++ [.closeBrace])) := by
  obtain ⟨ss, hss⟩ := h
  exact ⟨_, fun rest => by simpa using Generates.block (hss (.closeBrace :: rest))⟩

theorem makesArguments_nil : MakesArguments [] := fun head => ⟨head, fun _ => .noCall trivial⟩

theorem MakesArguments.cons (h : MakesItems .closeParen ts) (h' : MakesArguments us) :
    MakesArguments (.openParen :: (ts ++ us)) := by
  intro head
  obtain ⟨es, hes⟩ := h
  obtain ⟨t, ht⟩ := h' (.apply () head (.tuple () es))
  exact ⟨t, fun rest => by simpa using Generates.call (hes (us ++ rest)) (ht rest)⟩

theorem Makes.expr (h : Makes .primary ts) (h' : MakesArguments us) : Makes .expr (ts ++ us) := by
  obtain ⟨head, hhead⟩ := h
  obtain ⟨t, ht⟩ := h' head
  exact ⟨t, fun rest => by simpa using Generates.expr (hhead (us ++ rest)) (ht rest)⟩

/-- An expression that is not a call. -/
theorem Makes.uncalled (h : Makes .primary ts) : Makes .expr ts := by
  simpa using h.expr makesArguments_nil

/-- The simplest expression, which can stand wherever one is missing. -/
theorem makes_expr_var (x : String) : Makes .expr [.ident x] := (makes_var x).uncalled

end Expressions

/-! ### Lists and parameters -/

section Lists

variable {close : Token} {ts us : List Token}

theorem makesItems_nil (close : Token) : MakesItems close [close] := ⟨[], fun _ => .noItem⟩

theorem MakesItems.last (h : Makes .expr ts) : MakesItems close (ts ++ [close]) := by
  obtain ⟨t, ht⟩ := h
  exact ⟨[t], fun rest => by simpa using Generates.lastItem (ht (close :: rest))⟩

theorem MakesItems.cons (h : Makes .expr ts) (h' : MakesItems close us) :
    MakesItems close (ts ++ .comma :: us) := by
  obtain ⟨t, ht⟩ := h
  obtain ⟨es, hes⟩ := h'
  exact ⟨t :: es, fun rest => by
    simpa using Generates.item (ht (.comma :: (us ++ rest))) (hes rest)⟩

theorem makesParams_last (name : String) : MakesParams [.ident name, .closeParen] :=
  ⟨[name], by simp, rfl⟩

theorem MakesParams.cons (name : String) (h : MakesParams ts) :
    MakesParams (.ident name :: .comma :: ts) := by
  obtain ⟨names, hne, rfl⟩ := h
  obtain ⟨name', names, rfl⟩ := List.exists_cons_of_ne_nil hne
  exact ⟨name :: name' :: names, by simp, by simp [paramTokens]⟩

theorem MakesParams.fn (h : MakesParams us) (h' : Makes .expr ts) :
    Makes .primary (.fnWord :: .openParen :: (us ++ ts)) := by
  obtain ⟨names, -, rfl⟩ := h
  simpa using h'.fn names

end Lists

/-! ### Statements -/

section Statements

variable {ts us : List Token}

theorem Makes.decl (x : String) (h : Makes .expr ts) :
    Makes .bare (.letWord :: .ident x :: .equals :: ts) := by
  obtain ⟨t, ht⟩ := h
  exact ⟨_, fun rest => .decl (ht rest)⟩

theorem Makes.ret (h : Makes .expr ts) : Makes .bare (.returnWord :: ts) := by
  obtain ⟨t, ht⟩ := h
  exact ⟨_, fun rest => .ret (ht rest)⟩

theorem Makes.assign (x : String) (h : Makes .expr ts) :
    Makes .bare (.ident x :: .equals :: ts) := by
  obtain ⟨t, ht⟩ := h
  exact ⟨_, fun rest => .assign (ht rest)⟩

theorem Makes.value (h : Makes .expr ts) : Makes .bare ts := by
  obtain ⟨t, ht⟩ := h
  exact ⟨t, fun rest => .value (ht rest)⟩

theorem Makes.plain (h : Makes .bare ts) : Makes .stmt ts := by
  obtain ⟨s, hs⟩ := h
  exact ⟨s, fun rest => .plain (hs rest)⟩

theorem Makes.ended (h : Makes .bare ts) : Makes .stmt (ts ++ [.semicolon]) := by
  obtain ⟨s, hs⟩ := h
  exact ⟨s, fun rest => by simpa using Generates.ended (hs (.semicolon :: rest))⟩

theorem Makes.stmt_ne_nil (h : Makes .stmt ts) : ts ≠ [] := by
  rintro rfl
  obtain ⟨s, hs⟩ := h
  exact Nat.lt_irrefl _ (hs []).stmt_length_lt

theorem makes_noStmt : Makes .stmts [] := ⟨[], fun _ => .noStmt⟩

theorem Makes.next (h : Makes .stmt ts) (h' : Makes .stmts us) : Makes .stmts (ts ++ us) := by
  obtain ⟨s, hs⟩ := h
  obtain ⟨ss, hss⟩ := h'
  exact ⟨s :: ss, fun rest => by simpa using Generates.next (hs (us ++ rest)) (hss rest)⟩

theorem Makes.one (h : Makes .stmt ts) : Makes .stmts ts := by
  simpa using h.next makes_noStmt

end Statements

end LetTyping
