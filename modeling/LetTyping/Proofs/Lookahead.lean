import LetTyping.Proofs.Beginnings
import LetTyping.Proofs.Parsing

/-!
# How far readers look

A reader consumes some of its tokens and then gives a value or fails, and the next token is the last
one it has looked at: whatever comes behind that token, the outcome is the same.  The outcome does
not depend on the bounds of the reader either, as long as they are larger than the number of tokens.
When a reader fails, what it has consumed begins a phrase of the kind that it reads.

`Reader.Halts` says this of one outcome, and there is a rule for every step that readers are made
of.  `Reader.Stops` says that there is such an outcome on given tokens; the readers get it one by
one, and expressions by induction on the number of tokens.

## Main definitions

* `Reader.verdict` — the result of a reader, from its outcome and the tokens that are left.
* `Reader.Halts` — the outcome is the same for all tokens that go on alike.
* `Reader.Fits` — what was consumed is a phrase or, after a failure, the beginning of one.
* `Reader.Stops` — a reader has an outcome of this kind on given tokens.

## Main results

* `Reader.Halts.after`, `Reader.Halts.accepted`, … — the rules.
* `Reader.expr_stops`, `Reader.statements_stops` — **readers look no further than the next token,
  and what they consume begins a phrase.**
-/

namespace LetTyping

namespace Reader

variable {α β : Type} {s s' us us' rest : List (Located Token)} {stop : Span} {bound m n : Nat}

/-- The result of a reader that leaves the tokens `rest`: it gives a value, or it expects something
else there. -/
def verdict (stop : Span) (r : Except String α) (rest : List (Located Token)) :
    Except (Located ParseCause) (α × List (Located Token)) :=
  match r with
  | .ok a => .ok (a, rest)
  | .error expected => unexpected stop expected rest

/-- The reader consumes `us` and has the outcome `r`, whatever comes behind the first token of
`rest`, as long as there are fewer than `m` tokens. -/
def Halts (stop : Span) (m : Nat) (x : Reader α) (us rest : List (Located Token))
    (r : Except String α) : Prop :=
  ∀ rest', rest'.head? = rest.head? → (us ++ rest').length < m →
    x (us ++ rest') = verdict stop r rest'

/-! ### Rules -/

theorem head?_kinds (s : List (Located Token)) : (kinds s).head? = s.head?.map Located.val := by
  cases s <;> rfl

theorem bind_of_unexpected {x : Reader α} {f : α → Reader β} {expected : String}
    (h : x s = unexpected stop expected s') : (x >>= f) s = unexpected stop expected s' := by
  obtain ⟨fault, hfault⟩ := unexpected_eq_error stop expected s'
  show (x s >>= fun p => f p.1 p.2) = _
  rw [h, hfault, hfault]
  rfl

namespace Halts

variable {x y : Reader α} {f : α → Reader β} {a : α} {r : Except String α} {r' : Except String β}
variable {token : Token} {span : Span}

/-- Nothing is shorter than a bound of zero. -/
theorem none : Halts stop 0 x us rest r := fun _ _ hlen => absurd hlen (Nat.not_lt_zero _)

/-- A reader may be replaced by one that does the same on tokens that go on alike. -/
theorem congr (h : Halts stop m y us rest r)
    (heq : ∀ rest', rest'.head? = rest.head? → x (us ++ rest') = y (us ++ rest')) :
    Halts stop m x us rest r :=
  fun rest' hhead hlen => (heq rest' hhead).trans (h rest' hhead hlen)

/-- A value without consuming anything. -/
theorem pure (a : α) : Halts stop m (pure a) [] rest (.ok a) := fun _ _ _ => rfl

/-- A failure at the next token. -/
theorem unexpected (expected : String) :
    Halts stop m (Reader.unexpected stop expected : Reader α) [] rest (.error expected) :=
  fun _ _ _ => rfl

/-- A first token that only decides how to go on. -/
theorem consume {t : Located Token} (heq : ∀ s, x (t :: s) = y s)
    (h : Halts stop (m - 1) y us rest r) : Halts stop m x (t :: us) rest r := by
  intro rest' hhead hlen
  rw [List.cons_append, List.length_cons] at hlen
  exact (heq _).trans (h rest' hhead (by omega))

theorem bind (hx : Halts stop m x us (us' ++ rest) (.ok a)) (hf : Halts stop n (f a) us' rest r')
    (hn : m ≤ n + us.length) : Halts stop m (x >>= f) (us ++ us') rest r' := by
  intro rest' hhead hlen
  rw [List.append_assoc] at hlen ⊢
  have hnext : (us' ++ rest').head? = (us' ++ rest).head? := by
    rw [List.head?_append, List.head?_append, hhead]
  rw [bind_of_ok (hx _ hnext hlen)]
  rw [List.length_append] at hlen
  exact hf rest' hhead (by omega)

/-- One reader after another. -/
theorem after (hx : Halts stop m x us (us' ++ rest) (.ok a)) (hf : Halts stop m (f a) us' rest r') :
    Halts stop m (x >>= f) (us ++ us') rest r' := hx.bind hf (Nat.le_add_right _ _)

/-- One reader after another that has consumed something. -/
theorem afterSome (hx : Halts stop m x us (us' ++ rest) (.ok a)) (hus : us ≠ [])
    (hf : Halts stop (m - 1) (f a) us' rest r') : Halts stop m (x >>= f) (us ++ us') rest r' := by
  have := List.length_pos_iff.mpr hus
  exact hx.bind hf (by omega)

/-- One reader after another that consumes nothing more. -/
theorem last (hx : Halts stop m x us rest (.ok a)) (hf : Halts stop m (f a) [] rest r') :
    Halts stop m (x >>= f) us rest r' := by
  have hx' : Halts stop m x us ([] ++ rest) (.ok a) := hx
  have h := hx'.after hf
  rwa [List.append_nil] at h

theorem fail {expected : String} (hx : Halts stop m x us rest (.error expected)) :
    Halts stop m (x >>= f) us rest (.error expected) :=
  fun rest' hhead hlen => bind_of_unexpected (hx rest' hhead hlen)

/-- A value is made of the value that is read. -/
theorem map (hx : Halts stop m x us rest r) (g : α → β) :
    Halts stop m (x >>= fun a => Pure.pure (g a)) us rest (r.map g) := by
  cases r with
  | ok a => exact hx.last (.pure _)
  | error e => exact hx.fail

/-- A token that may be there and is. -/
theorem accepted {f : Option Span → Reader β} (h : Halts stop (m - 1) (f (some span)) us rest r') :
    Halts stop m (accept token >>= f) (⟨token, span⟩ :: us) rest r' :=
  consume (fun s => bind_of_ok (accept_here token span s)) h

/-- A token that may be there and is not. -/
theorem declined {f : Option Span → Reader β} (hs : (kinds (us ++ rest)).head? ≠ some token)
    (h : Halts stop m (f Option.none) us rest r') :
    Halts stop m (accept token >>= f) us rest r' := by
  refine h.congr fun rest' hhead => bind_of_ok (accept_other ?_)
  rwa [head?_kinds, List.head?_append, hhead, ← List.head?_append, ← head?_kinds]

/-- A token that must be there and is. -/
theorem expected {f : Span → Reader β} (h : Halts stop (m - 1) (f span) us rest r') :
    Halts stop m (expect stop token >>= f) (⟨token, span⟩ :: us) rest r' :=
  consume (fun s => bind_of_ok (expect_here token span s)) h

/-- A token that must be there and is not. -/
theorem missing {f : Span → Reader β} (hrest : (kinds rest).head? ≠ some token) :
    Halts stop m (expect stop token >>= f) [] rest (.error token.text) :=
  fail (declined hrest (.unexpected _))

/-- An identifier that must be there and is. -/
theorem named {f : String → Reader β} {name : String}
    (h : Halts stop (m - 1) (f name) us rest r') :
    Halts stop m (ident stop >>= f) (⟨.ident name, span⟩ :: us) rest r' :=
  consume (fun _ => bind_of_ok rfl) h

/-- An identifier that must be there and is not. -/
theorem unnamed {f : String → Reader β} (hrest : ∀ name, (kinds rest).head? ≠ some (.ident name)) :
    Halts stop m (ident stop >>= f) [] rest (.error "identifier") := by
  refine fail fun rest' hhead _ => ?_
  rw [head?_kinds, ← hhead, ← head?_kinds] at hrest
  show ident stop rest' = Reader.unexpected stop "identifier" rest'
  unfold ident
  split
  · exact absurd rfl (hrest _)
  · rfl

end Halts

/-! ### Outcomes -/

/-- The tokens that a reader has consumed are in the set `L`; if it fails, they begin a sequence of
the set. -/
def Fits (L : List Token → Prop) (ts : List Token) : Except String α → Prop
  | .ok _ => L ts
  | .error _ => Begins L ts

theorem Fits.fail {L : List Token → Prop} {ts : List Token} {expected : String} (h : Begins L ts) :
    Fits L ts (.error expected : Except String α) := h

/-- Tokens before what a reader has consumed. -/
theorem Fits.behind {L K : List Token → Prop} (ts : List Token) {us : List Token}
    {r : Except String α} (h : Fits L us r) (hK : ∀ vs, L vs → K (ts ++ vs)) :
    Fits K (ts ++ us) r := by
  cases r with
  | ok a => exact hK us h
  | error e => exact Begins.inside ts h fun vs hvs => .of_all (hK vs hvs)

theorem Fits.map {L : List Token → Prop} {ts : List Token} {r : Except String α}
    (h : Fits L ts r) (g : α → β) : Fits L ts (r.map g) := by
  cases r <;> exact h

/-- On the tokens `s`, the reader has an outcome that fits.  It has bounds for the expressions
inside and for itself, which play no part as long as they are large enough. -/
def Stops (stop : Span) (L : List Token → Prop) (x : Nat → Nat → Reader α)
    (s : List (Located Token)) : Prop :=
  ∃ us rest r, s = us ++ rest ∧ Fits L (kinds us) r ∧
    ∀ m b n, m ≤ b → m ≤ n → Halts stop m (x b n) us rest r

/-- A value is made of the value that is read. -/
theorem Stops.map {L K : List Token → Prop} {x : Nat → Nat → Reader α} (h : Stops stop L x s)
    (g : α → β) (hK : ∀ ts, L ts → K ts) :
    Stops stop K (fun b n => x b n >>= fun a => pure (g a)) s := by
  obtain ⟨us, rest, r, rfl, hfits, hhalts⟩ := h
  exact ⟨us, rest, r.map g, rfl, (hfits.behind [] hK).map g, fun m b n hb hn =>
    (hhalts m b n hb hn).map g⟩

/-- A first token that only decides how to go on.  The bounds may get smaller by one. -/
theorem Stops.consume {L : List Token → Prop} {x y : Nat → Nat → Reader α} {token : Token}
    {span : Span} (h : Stops stop (fun ts => L (token :: ts)) y s)
    (heq : ∀ b n, ∃ b' n', b ≤ b' + 1 ∧ n ≤ n' + 1 ∧
      ∀ s, x b n (⟨token, span⟩ :: s) = y b' n' s) :
    Stops stop L x (⟨token, span⟩ :: s) := by
  obtain ⟨us, rest, r, rfl, hfits, hhalts⟩ := h
  refine ⟨⟨token, span⟩ :: us, rest, r, rfl, hfits.behind [token] fun _ => id,
    fun m b n hb hn => ?_⟩
  obtain ⟨b', n', hb', hn', heq⟩ := heq b n
  exact .consume heq (hhalts (m - 1) b' n' (by omega) (by omega))

/-- Bounds that are large enough are not zero. -/
theorem Halts.of_succ {x : Nat → Nat → Reader α} {r : Except String α}
    (h : ∀ m b n, m ≤ b → m ≤ n → Halts stop (m + 1) (x (b + 1) (n + 1)) us rest r) :
    ∀ m b n, m ≤ b → m ≤ n → Halts stop m (x b n) us rest r := by
  intro m b n hb hn
  cases m with
  | zero => exact .none
  | succ m =>
    obtain ⟨b, rfl⟩ := Nat.exists_eq_add_one.mpr (Nat.zero_lt_of_lt hb)
    obtain ⟨n, rfl⟩ := Nat.exists_eq_add_one.mpr (Nat.zero_lt_of_lt hn)
    exact h m b n (Nat.le_of_succ_le_succ hb) (Nat.le_of_succ_le_succ hn)

@[simp] theorem kinds_append (s s' : List (Located Token)) :
    kinds (s ++ s') = kinds s ++ kinds s' := List.map_append

/-- The next token is the given one, or another one or none. -/
theorem next_cases (token : Token) (s : List (Located Token)) :
    (∃ span s', s = ⟨token, span⟩ :: s') ∨ (kinds s).head? ≠ some token := by
  cases s with
  | nil => exact .inr (by simp)
  | cons t s' =>
    by_cases ht : t.val = token
    · exact .inl ⟨t.span, s', by rw [← ht]⟩
    · exact .inr (by simpa using ht)

theorem ident_cases (s : List (Located Token)) :
    (∃ name span s', s = ⟨.ident name, span⟩ :: s') ∨
      ∀ name, (kinds s).head? ≠ some (.ident name) := by
  by_cases h : ∃ name, (kinds s).head? = some (.ident name)
  · obtain ⟨name, h⟩ := h
    rcases next_cases (.ident name) s with ⟨span, s', hs⟩ | hs
    · exact .inl ⟨name, span, s', hs⟩
    · exact absurd h hs
  · exact .inr (not_exists.mp h)

/-! ### Parameters and lists -/

theorem params_stops (s : List (Located Token)) :
    Stops stop MakesParams (fun _ n => params stop n) s := by
  induction hk : s.length using Nat.strongRecOn generalizing s with
  | ind k ih =>
    subst hk
    rcases ident_cases s with ⟨name, span, s₁, rfl⟩ | hident
    · rcases next_cases .comma s₁ with ⟨span₁, s₂, rfl⟩ | hcomma
      · -- more parameters follow
        obtain ⟨us, rest, r, rfl, hfits, hhalts⟩ := ih s₂.length
          (by simp only [List.length_cons]; omega) s₂ rfl
        refine ⟨⟨.ident name, span⟩ :: ⟨.comma, span₁⟩ :: us, rest, r.map (name :: ·), rfl,
          (hfits.behind [.ident name, .comma] fun vs hvs => hvs.cons name).map _, ?_⟩
        refine .of_succ fun m b n _ hn => ?_
        rw [params]
        exact .named (.accepted ((hhalts _ b n (by omega) (by omega)).map _))
      · rcases next_cases .closeParen s₁ with ⟨span₁, s₂, rfl⟩ | hclose
        · refine ⟨[⟨.ident name, span⟩, ⟨.closeParen, span₁⟩], s₂, .ok [name], rfl,
            makesParams_last name, ?_⟩
          refine .of_succ fun m b n _ _ => ?_
          rw [params]
          exact .named (.declined hcomma (.expected (.pure _)))
        · refine ⟨[⟨.ident name, span⟩], s₁, .error Token.closeParen.text, rfl,
            .of_append [.closeParen] (makesParams_last name), ?_⟩
          refine .of_succ fun m b n _ _ => ?_
          rw [params]
          exact .named (.declined hcomma (.missing hclose))
    · refine ⟨[], s, .error "identifier", rfl, .of_append _ (makesParams_last "x"), ?_⟩
      refine .of_succ fun m b n _ _ => ?_
      rw [params]
      exact .unnamed hident

/-- What does not start like a declaration, a returned value or an assignment is read as an
expression. -/
theorem bareStatement_eq_inner {inner : Reader (Tree Span)} (hlet : (kinds s).head? ≠ some .letWord)
    (hreturn : (kinds s).head? ≠ some .returnWord)
    (hassign : ∀ name span span' s', s ≠ ⟨.ident name, span⟩ :: ⟨.equals, span'⟩ :: s') :
    bareStatement stop inner s = inner s := by
  unfold bareStatement
  split
  · exact absurd rfl hlet
  · exact absurd rfl hreturn
  · exact absurd rfl (hassign _ _ _ _)
  · rfl

/-- An expression takes the name that it starts with. -/
theorem not_halts_ident {name : String} {span : Span} {r : Except String (Tree Span)} :
    ¬Halts stop 2 (expr stop 2) [] (⟨.ident name, span⟩ :: s) r := by
  intro h
  have heq : Except.ok (Tree.var span name, []) = verdict stop r [⟨.ident name, span⟩] :=
    h [⟨.ident name, span⟩] rfl (by simp)
  cases r <;> cases heq

/-- Whether statements end is decided by the next token. -/
theorem statementsEnd_congr {inBlock : Bool} (h : s.head? = s'.head?) :
    statementsEnd inBlock s = statementsEnd inBlock s' := by
  cases s <;> cases s' <;> simp_all [statementsEnd]

theorem start_halts (stop : Span) (s : List (Located Token)) :
    ∃ first, ∀ m, Halts stop m (start stop) [] s (.ok first) := by
  refine ⟨(s.head?.map fun t => t.span.start).getD stop.start, fun _ rest' hhead _ => ?_⟩
  rw [← hhead]
  rfl

/-- No expression starts with the other tokens. -/
theorem primary_eq_unexpected {inner : Reader (Tree Span)}
    (h : ∀ t ∈ s.head?, t.val.startsExpr = false) :
    primary stop inner bound s = unexpected stop "expression" s := by
  unfold primary
  split
  all_goals first | rfl | exact absurd (h _ rfl) (by simp [Token.startsExpr])

section Forms

-- expressions stop on all tokens that are fewer than `k`
variable {k : Nat}
  (hexpr : ∀ s : List (Located Token), s.length < k →
    Stops stop (Makes .expr) (fun b _ => expr stop b) s)

include hexpr

theorem list_stops (close : Token) (s : List (Located Token)) (hs : s.length < k) :
    Stops stop (MakesItems close) (fun b n => list stop (expr stop b) close n) s := by
  induction hj : s.length using Nat.strongRecOn generalizing s with
  | ind j ih =>
    subst hj
    rcases next_cases close s with ⟨span, s₁, rfl⟩ | hclose
    · refine ⟨[⟨close, span⟩], s₁, .ok ([], span), rfl, makesItems_nil close, ?_⟩
      refine .of_succ fun m b n _ _ => ?_
      rw [list]
      exact .accepted (.pure _)
    · obtain ⟨us, rest, r, rfl, hfits, hhalts⟩ := hexpr s hs
      cases r with
      | error e =>
        refine ⟨us, rest, .error e, rfl, Begins.inside [] hfits fun vs hvs =>
          .of_append [close] (MakesItems.last hvs), ?_⟩
        refine .of_succ fun m b n hb _ => ?_
        rw [list]
        exact .declined hclose (hhalts _ _ _ (by omega) (Nat.le_refl _)).fail
      | ok t =>
        have hitem : Makes .expr (kinds us) := hfits
        rcases next_cases .comma rest with ⟨span, s₁, rfl⟩ | hcomma
        · -- more items follow
          obtain ⟨us₁, rest₁, r₁, rfl, hfits₁, hhalts₁⟩ :=
            ih s₁.length (by simp; omega) s₁ (by simp at hs; omega) rfl
          refine ⟨us ++ ⟨.comma, span⟩ :: us₁, rest₁,
            r₁.map fun items => (t :: items.1, items.2), by simp, ?_, ?_⟩
          · have hcons : Fits (MakesItems close) (kinds us ++ [.comma] ++ kinds us₁) r₁ :=
              hfits₁.behind _ fun vs hvs => by simpa using MakesItems.cons hitem hvs
            simpa using hcons.map _
          · refine .of_succ fun m b n hb hn => ?_
            rw [list]
            refine .declined (by simpa using hclose) ?_
            refine (hhalts _ _ _ (by omega) (Nat.le_refl _)).after (.accepted ?_)
            exact (hhalts₁ _ _ n (by omega) (by omega)).map _
        · rcases next_cases close rest with ⟨span, s₁, rfl⟩ | hend
          · refine ⟨us ++ [⟨close, span⟩], s₁, .ok ([t], span), by simp, ?_, ?_⟩
            · rw [kinds_append]
              exact MakesItems.last hitem
            · refine .of_succ fun m b n hb _ => ?_
              rw [list]
              refine .declined (by simpa using hclose) ?_
              exact (hhalts _ _ _ (by omega) (Nat.le_refl _)).after
                (.declined hcomma (.expected (.pure _)))
          · refine ⟨us, rest, .error close.text, rfl,
              .of_append [close] (MakesItems.last hitem), ?_⟩
            refine .of_succ fun m b n hb _ => ?_
            rw [list]
            exact .declined hclose ((hhalts _ _ _ (by omega) (Nat.le_refl _)).last
              (.declined hcomma (.missing hend)))

/-! ### Primary expressions -/

theorem parenthesized_stops (first : Nat) (s : List (Located Token)) (hs : s.length < k) :
    Stops stop (fun ts => Makes .primary (.openParen :: ts))
      (fun b n => parenthesized stop (expr stop b) n first) s := by
  simp only [parenthesized]
  -- nothing between the parentheses
  rcases next_cases .closeParen s with ⟨span, s₁, rfl⟩ | hclose
  · exact ⟨[⟨.closeParen, span⟩], s₁, .ok (.tuple ⟨first, span.stop⟩ []), rfl, makes_unit,
      fun m b n _ _ => .accepted (.pure _)⟩
  · obtain ⟨us, rest, r, rfl, hfits, hhalts⟩ := hexpr s hs
    have hread := fun m b hb => hhalts m b m hb (Nat.le_refl m)
    cases r with
    | error e =>
      exact ⟨us, rest, .error e, rfl,
        -- an expression that fails would have been completed by a parenthesis
        .fail (.inside [] hfits fun vs hvs => .of_append [.closeParen] hvs.group),
        fun m b n hb _ => .declined hclose (hread m b hb).fail⟩
    | ok t =>
      have hhead : Makes .expr (kinds us) := hfits
      -- one expression in parentheses
      rcases next_cases .closeParen rest with ⟨span, s₁, rfl⟩ | hend
      · refine ⟨us ++ [⟨.closeParen, span⟩], s₁, .ok t, by simp, ?_, fun m b n hb _ => ?_⟩
        · rw [kinds_append]
          exact hhead.group
        · exact .declined (by simpa using hclose) ((hread m b hb).after (.accepted (.pure _)))
      -- a comma makes it a tuple
      · rcases next_cases .comma rest with ⟨span, s₁, rfl⟩ | hcomma
        · obtain ⟨us₁, rest₁, r₁, rfl, hfits₁, hhalts₁⟩ :=
            list_stops hexpr .closeParen s₁ (by simp at hs; omega)
          refine ⟨us ++ ⟨.comma, span⟩ :: us₁, rest₁,
            r₁.map fun items => .tuple ⟨first, items.2.stop⟩ (t :: items.1), by simp, ?_,
            fun m b n hb hn => ?_⟩
          · have htuple : Fits (fun ts => Makes .primary (.openParen :: ts))
                (kinds us ++ [.comma] ++ kinds us₁) r₁ :=
              hfits₁.behind _ fun vs hvs => by simpa using hhead.tuple hvs
            simpa using htuple.map _
          · refine .declined (by simpa using hclose) ((hread m b hb).after ?_)
            exact .declined hend (.expected ((hhalts₁ (m - 1) b n (by omega) (by omega)).map _))
        -- neither; the expression alone could have been completed
        · exact ⟨us, rest, .error Token.comma.text, rfl,
            .fail (.of_append [.closeParen] hhead.group),
            fun m b n hb _ => .declined hclose ((hread m b hb).last
              (.declined hend (.missing hcomma)))⟩

theorem array_stops (first : Nat) (s : List (Located Token)) (hs : s.length < k) :
    Stops stop (fun ts => Makes .primary (.openBracket :: ts))
      (fun b n => array stop (expr stop b) n first) s :=
  (list_stops hexpr .closeBracket s hs).map
    (fun items => Tree.array (⟨first, items.2.stop⟩ : Span) items.1) fun _ hts => hts.array

theorem function_stops (first : Nat) (s : List (Located Token)) (hs : s.length < k) :
    Stops stop (fun ts => Makes .primary (.fnWord :: ts))
      (fun b n => function stop (expr stop b) n first) s := by
  simp only [function]
  have hvar := makes_expr_var "x"
  rcases next_cases .openParen s with ⟨span, s₁, rfl⟩ | hopen
  · rcases next_cases .closeParen s₁ with ⟨span₁, s₂, rfl⟩ | hclose
    · -- no parameters
      obtain ⟨us, rest, r, rfl, hfits, hhalts⟩ := hexpr s₂ (by simp at hs; omega)
      refine ⟨⟨.openParen, span⟩ :: ⟨.closeParen, span₁⟩ :: us, rest,
        r.map fun body => .fn ⟨first, body.label.stop⟩ [] body, rfl,
        (hfits.behind [.openParen, .closeParen] fun vs hvs => hvs.fn []).map _,
        fun m b n hb hn => .expected (.accepted ?_)⟩
      exact (hhalts (m - 1 - 1) b n (by omega) (by omega)).map
        fun body => Tree.fn (⟨first, body.label.stop⟩ : Span) [] body
    · obtain ⟨us, rest, r, rfl, hfits, hhalts⟩ := params_stops s₁
      cases r with
      | error e =>
        refine ⟨⟨.openParen, span⟩ :: us, rest, .error e, rfl, ?_,
          fun m b n hb hn => .expected (.declined hclose (hhalts _ b n (by omega) (by omega)).fail)⟩
        exact .fail (.inside [.openParen] hfits fun vs hvs => .of_append [.ident "x"] (hvs.fn hvar))
      | ok names =>
        have hparams : MakesParams (kinds us) := hfits
        obtain ⟨us₁, rest, r, rfl, hfits₁, hhalts₁⟩ := hexpr rest (by simp at hs; omega)
        refine ⟨⟨.openParen, span⟩ :: (us ++ us₁), rest,
          r.map fun body => .fn ⟨first, body.label.stop⟩ names body, by simp, ?_,
          fun m b n hb hn => ?_⟩
        · rw [kinds_cons, kinds_append]
          exact (hfits₁.behind (.openParen :: kinds us) fun vs hvs => hparams.fn hvs).map _
        · refine .expected (.declined (by simpa using hclose) ?_)
          exact (hhalts _ b n (by omega) (by omega)).after
            ((hhalts₁ _ b n (by omega) (by omega)).map _)
  · exact ⟨[], s, .error Token.openParen.text, rfl,
      .fail (.of_append [.openParen, .closeParen, .ident "x"] (hvar.fn [])),
      fun m b n _ _ => .missing hopen⟩

/-! ### Statements -/

theorem declaration_stops (first : Nat) (s : List (Located Token)) (hs : s.length < k) :
    Stops stop (fun ts => Makes .bare (.letWord :: ts))
      (fun b _ => declaration stop (expr stop b) first) s := by
  simp only [declaration]
  have hvar := makes_expr_var "x"
  -- a fault is at the name, at the equals sign or in the value, and each time the rest could follow
  rcases ident_cases s with ⟨name, span, s₁, rfl⟩ | hident
  · rcases next_cases .equals s₁ with ⟨span₁, s₂, rfl⟩ | hequals
    · obtain ⟨us, rest, r, rfl, hfits, hhalts⟩ := hexpr s₂ (by simp at hs; omega)
      exact ⟨⟨.ident name, span⟩ :: ⟨.equals, span₁⟩ :: us, rest,
        r.map fun value => .decl ⟨first, value.label.stop⟩ name value, rfl,
        (hfits.behind [.ident name, .equals] fun vs hvs => hvs.decl name).map _,
        fun m b n hb hn => .named (.expected ((hhalts _ b n (by omega) (by omega)).map _))⟩
    · exact ⟨[⟨.ident name, span⟩], s₁, .error Token.equals.text, rfl,
        .fail (.of_append [.equals, .ident "x"] (hvar.decl name)),
        fun m b n _ _ => .named (.missing hequals)⟩
  · exact ⟨[], s, .error "identifier", rfl,
      .fail (.of_append [.ident "x", .equals, .ident "x"] (hvar.decl "x")),
      fun m b n _ _ => .unnamed hident⟩

theorem bareStatement_stops (s : List (Located Token)) (hs : s.length < k) :
    Stops stop (Makes .bare) (fun b _ => bareStatement stop (expr stop b)) s := by
  rcases next_cases .letWord s with ⟨span, s₁, rfl⟩ | hlet
  · exact (declaration_stops hexpr span.start s₁ (by simp at hs; omega)).consume fun b n =>
      ⟨b, n, Nat.le_succ b, Nat.le_succ n, fun _ => rfl⟩
  rcases next_cases .returnWord s with ⟨span, s₁, rfl⟩ | hreturn
  · have hvalue := (hexpr s₁ (by simp at hs; omega)).map
      (fun value => Tree.ret ⟨span.start, value.label.stop⟩ value) fun _ hts => hts.ret
    exact hvalue.consume fun b n => ⟨b, n, Nat.le_succ b, Nat.le_succ n, fun _ => rfl⟩
  by_cases hassign : ∃ name span span' s', s = ⟨.ident name, span⟩ :: ⟨.equals, span'⟩ :: s'
  · obtain ⟨name, span, span', s₁, rfl⟩ := hassign
    obtain ⟨us, rest, r, rfl, hfits, hhalts⟩ := hexpr s₁ (by simp at hs; omega)
    refine ⟨⟨.ident name, span⟩ :: ⟨.equals, span'⟩ :: us, rest,
      r.map fun value => .assign ⟨span.start, value.label.stop⟩ name value, rfl,
      (hfits.behind [.ident name, .equals] fun vs hvs => hvs.assign name).map _,
      fun m b n hb hn rest' hhead hlen => ?_⟩
    exact (hhalts (m - 2) b n (by omega) (by omega)).map _ rest' hhead (by simp at hlen ⊢; omega)
  · obtain ⟨us, rest, r, rfl, hfits, hhalts⟩ := hexpr s hs
    refine ⟨us, rest, r, rfl, hfits.behind [] fun vs hvs => hvs.value, fun m b n hb hn =>
      (hhalts m b n hb hn).congr fun rest' hhead => ?_⟩
    have hkinds : (kinds (us ++ rest')).head? = (kinds (us ++ rest)).head? := by
      rw [head?_kinds, head?_kinds, List.head?_append, List.head?_append, hhead]
    refine bareStatement_eq_inner (hkinds ▸ hlet) (hkinds ▸ hreturn) ?_
    -- the name and the equals sign would both be among the tokens that have been looked at
    rintro name span span' s₁ heq
    cases us with
    | nil =>
      obtain rfl : rest' = _ := heq
      obtain ⟨s₂, rfl⟩ := List.head?_eq_some_iff.mp hhead.symm
      exact not_halts_ident (hhalts 2 2 2 (Nat.le_refl 2) (Nat.le_refl 2))
    | cons t us =>
      cases us with
      | nil =>
        obtain ⟨rfl, rfl⟩ := List.cons.inj heq
        obtain ⟨s₂, rfl⟩ := List.head?_eq_some_iff.mp hhead.symm
        exact hassign ⟨_, _, _, _, rfl⟩
      | cons t' us =>
        simp only [List.cons_append, List.cons.injEq] at heq
        obtain ⟨rfl, rfl, -⟩ := heq
        exact hassign ⟨_, _, _, _, rfl⟩

theorem statement_stops (s : List (Located Token)) (hs : s.length < k) :
    Stops stop (Makes .stmt) (fun b _ => statement stop (expr stop b)) s := by
  simp only [statement]
  obtain ⟨us, rest, r, rfl, hfits, hhalts⟩ := bareStatement_stops hexpr s hs
  cases r with
  | error e =>
    exact ⟨us, rest, .error e, rfl, .fail (.inside [] hfits fun vs hvs => .of_all hvs.plain),
      fun m b n hb hn => (hhalts m b n hb hn).fail⟩
  | ok t =>
    have hbare : Makes .bare (kinds us) := hfits
    -- a semicolon belongs to the statement if there is one
    rcases next_cases .semicolon rest with ⟨span, s₁, rfl⟩ | hsemicolon
    · refine ⟨us ++ [⟨.semicolon, span⟩], s₁, .ok t, by simp, ?_, fun m b n hb hn => ?_⟩
      · rw [kinds_append]
        exact hbare.ended
      · exact (hhalts m b n hb hn).after (.accepted (.pure _))
    · exact ⟨us, rest, .ok t, rfl, hbare.plain,
        fun m b n hb hn => (hhalts m b n hb hn).last (.declined hsemicolon (.pure _))⟩

/-- Statements are read up to where they end. -/
theorem statements_stops (inBlock : Bool) (s : List (Located Token)) (hs : s.length < k) :
    Stops stop (Makes .stmts) (fun b n => statements stop (expr stop b) inBlock n) s := by
  induction hj : s.length using Nat.strongRecOn generalizing s with
  | ind j ih =>
    subst hj
    by_cases hend : statementsEnd inBlock s = true
    · refine ⟨[], s, .ok [], rfl, makes_noStmt, .of_succ fun m b n _ _ => ?_⟩
      rw [statements]
      refine (Halts.pure []).congr fun rest' hhead => (bind_of_ok rfl).trans ?_
      exact congrFun (if_pos (statementsEnd_congr hhead ▸ hend)) rest'
    · -- there is a statement to be read
      have hnext : ∀ us rest rest' b n, s = us ++ rest → rest'.head? = rest.head? →
          statements stop (expr stop b) inBlock (n + 1) (us ++ rest') = (do
            let head ← statement stop (expr stop b)
            let tail ← statements stop (expr stop b) inBlock n
            return head :: tail : Reader (List (Tree Span))) (us ++ rest') := by
        rintro us rest rest' b n rfl hhead
        have hsame : (us ++ rest').head? = (us ++ rest).head? := by
          rw [List.head?_append, List.head?_append, hhead]
        rw [← statementsEnd_congr hsame] at hend
        exact (bind_of_ok rfl).trans (congrFun (if_neg hend) _)
      obtain ⟨us, rest, r, hsplit, hfits, hhalts⟩ := statement_stops hexpr s hs
      cases r with
      | error e =>
        refine ⟨us, rest, .error e, hsplit,
          .fail (.inside [] hfits fun vs hvs => .of_all hvs.one), .of_succ fun m b n hb hn => ?_⟩
        exact (hhalts _ _ _ (by omega) (Nat.le_refl _)).fail.congr fun rest' hhead =>
          hnext us rest rest' (b + 1) n hsplit hhead
      | ok t =>
        have hstmt : Makes .stmt (kinds us) := hfits
        have hne : us ≠ [] := fun h => hstmt.stmt_ne_nil (by rw [h]; rfl)
        have hlen := List.length_pos_iff.mpr hne
        have hrest : rest.length < s.length := by
          rw [hsplit, List.length_append]
          omega
        obtain ⟨us₁, rest₁, r₁, rfl, hfits₁, hhalts₁⟩ :=
          ih rest.length hrest rest (by omega) rfl
        refine ⟨us ++ us₁, rest₁, r₁.map (t :: ·), by simpa using hsplit, ?_,
          .of_succ fun m b n hb hn => ?_⟩
        · rw [kinds_append]
          exact (hfits₁.behind _ fun vs hvs => hstmt.next hvs).map _
        · refine Halts.congr ?_ fun rest' hhead =>
            hnext (us ++ us₁) rest₁ rest' (b + 1) n (by simpa using hsplit) hhead
          refine (hhalts _ _ _ (by omega) (Nat.le_refl _)).afterSome hne ?_
          exact (hhalts₁ m (b + 1) n (by omega) hn).map _

theorem block_stops (first : Nat) (s : List (Located Token)) (hs : s.length < k) :
    Stops stop (fun ts => Makes .primary (.openBrace :: ts))
      (fun b n => block stop (expr stop b) n first) s := by
  simp only [block]
  obtain ⟨us, rest, r, rfl, hfits, hhalts⟩ := statements_stops hexpr true s hs
  cases r with
  | error e =>
    exact ⟨us, rest, .error e, rfl,
      .fail (.inside [] hfits fun vs hvs => .of_append [.closeBrace] hvs.block),
      fun m b n hb hn => (hhalts m b n hb hn).fail⟩
  | ok ts =>
    have hstmts : Makes .stmts (kinds us) := hfits
    -- the statements have ended, and what ends them must be the brace
    rcases next_cases .closeBrace rest with ⟨span, s₁, rfl⟩ | hclose
    · refine ⟨us ++ [⟨.closeBrace, span⟩], s₁, .ok (.block ⟨first, span.stop⟩ ts), by simp, ?_,
        fun m b n hb hn => (hhalts m b n hb hn).after ?_⟩
      · rw [kinds_append]
        exact hstmts.block
      · exact .expected (.pure _)
    · exact ⟨us, rest, .error Token.closeBrace.text, rfl,
        .fail (.of_append [.closeBrace] hstmts.block),
        fun m b n hb hn => (hhalts m b n hb hn).last (.missing hclose)⟩

/-! ### Calls -/

theorem calls_stops (first : Nat) (head : Tree Span) (s : List (Located Token))
    (hs : s.length < k) :
    Stops stop MakesArguments (fun b n => calls stop (expr stop b) first head n) s := by
  induction hj : s.length using Nat.strongRecOn generalizing s head with
  | ind j ih =>
    subst hj
    rcases next_cases .openParen s with ⟨span, s₁, rfl⟩ | hopen
    · obtain ⟨us, rest, r, rfl, hfits, hhalts⟩ :=
        list_stops hexpr .closeParen s₁ (by simp at hs; omega)
      cases r with
      | error e =>
        refine ⟨⟨.openParen, span⟩ :: us, rest, .error e, rfl, ?_, .of_succ fun m b n hb hn => ?_⟩
        · refine .fail (.inside [.openParen] hfits fun vs hvs => .of_all ?_)
          simpa using MakesArguments.cons hvs makesArguments_nil
        · rw [calls]
          exact .accepted (hhalts _ _ n (by omega) (by omega)).fail
      | ok items =>
        -- the call may be called in turn
        obtain ⟨us₁, rest₁, r₁, rfl, hfits₁, hhalts₁⟩ := ih rest.length
          (by simp only [List.length_cons, List.length_append]; omega)
          (.apply ⟨first, items.2.stop⟩ head (.tuple ⟨span.start, items.2.stop⟩ items.1)) rest
          (by simp at hs; omega) rfl
        refine ⟨⟨.openParen, span⟩ :: (us ++ us₁), rest₁, r₁, by simp, ?_,
          .of_succ fun m b n hb hn => ?_⟩
        · rw [kinds_cons, kinds_append]
          exact hfits₁.behind (.openParen :: kinds us) fun vs hvs => MakesArguments.cons hfits hvs
        · rw [calls]
          exact .accepted ((hhalts _ _ n (by omega) (by omega)).after
            (hhalts₁ _ _ n (by omega) (by omega)))
    · refine ⟨[], s, .ok head, rfl, makesArguments_nil, .of_succ fun m b n _ _ => ?_⟩
      rw [calls]
      exact .declined hopen (.pure _)

/-- The bounds of the parts are smaller by one, since the first token is consumed before them. -/
theorem primary_stops (s : List (Located Token)) (hs : s.length ≤ k) :
    Stops stop (Makes .primary) (fun b n => primary stop (expr stop (b - 1)) (n - 1)) s := by
  -- no expression starts here, though a name could stand here
  have hother : (∀ t ∈ s.head?, t.val.startsExpr = false) →
      Stops stop (Makes .primary) (fun b n => primary stop (expr stop (b - 1)) (n - 1)) s :=
    fun h => ⟨[], s, .error "expression", rfl, .fail (.of_append _ (makes_var "x")),
      fun m b n _ _ => (Halts.unexpected "expression").congr fun rest' hhead =>
        primary_eq_unexpected (hhead ▸ h)⟩
  cases s with
  | nil => exact hother (by simp)
  | cons t s =>
    obtain ⟨token, span⟩ := t
    have hs : s.length < k := hs
    cases token with
    | int v =>
      exact ⟨[⟨.int v, span⟩], s, .ok (.int span v), rfl, makes_int v,
        fun m b n _ _ => .consume (fun _ => rfl) (.pure _)⟩
    | ident x =>
      exact ⟨[⟨.ident x, span⟩], s, .ok (.var span x), rfl, makes_var x,
        fun m b n _ _ => .consume (fun _ => rfl) (.pure _)⟩
    | openParen => exact (parenthesized_stops hexpr span.start s hs).consume fun b n =>
        ⟨b - 1, n - 1, by omega, by omega, fun _ => rfl⟩
    | openBracket => exact (array_stops hexpr span.start s hs).consume fun b n =>
        ⟨b - 1, n - 1, by omega, by omega, fun _ => rfl⟩
    | fnWord => exact (function_stops hexpr span.start s hs).consume fun b n =>
        ⟨b - 1, n - 1, by omega, by omega, fun _ => rfl⟩
    | openBrace => exact (block_stops hexpr span.start s hs).consume fun b n =>
        ⟨b - 1, n - 1, by omega, by omega, fun _ => rfl⟩
    | _ => exact hother (by simp [Token.startsExpr])

end Forms

/-- **Expressions are read without looking further than the next token, and what is consumed begins
an expression.** -/
theorem expr_stops (s : List (Located Token)) :
    Stops stop (Makes .expr) (fun b _ => expr stop b) s := by
  -- expressions inside this one are read from fewer tokens, as the first one is consumed before
  induction hk : s.length using Nat.strongRecOn generalizing s with
  | ind k ih =>
    subst hk
    have hexpr : ∀ s' : List (Located Token), s'.length < s.length →
        Stops stop (Makes .expr) (fun b _ => expr stop b) s' := fun s' hs' => ih _ hs' s' rfl
    obtain ⟨us, rest, r, hsplit, hfits, hhalts⟩ := primary_stops hexpr s (Nat.le_refl _)
    obtain ⟨first, hstart⟩ := start_halts stop s
    subst hsplit
    cases r with
    | error e =>
      refine ⟨us, rest, .error e, rfl, .fail (.inside [] hfits fun vs hvs => .of_all hvs.uncalled),
        .of_succ fun m b n hb hn => ?_⟩
      rw [expr]
      exact (hstart _).after (hhalts _ (b + 1) (b + 1) (by omega) (by omega)).fail
    | ok head =>
      have hhead : Makes .primary (kinds us) := hfits
      -- the first part takes a token, so the calls have fewer tokens left
      have hne : us ≠ [] := fun h => hhead.primary_ne_nil (by rw [h]; rfl)
      have hlen := List.length_pos_iff.mpr hne
      obtain ⟨us₁, rest₁, r₁, rfl, hfits₁, hhalts₁⟩ :=
        calls_stops hexpr first head rest (by simp; omega)
      refine ⟨us ++ us₁, rest₁, r₁, by simp, ?_, .of_succ fun m b n hb hn => ?_⟩
      · rw [kinds_append]
        exact hfits₁.behind _ fun vs hvs => hhead.expr hvs
      · rw [expr]
        simp only [← List.append_assoc] at hstart
        refine (hstart _).after ?_
        exact (hhalts _ (b + 1) (b + 1) (by omega) (by omega)).afterSome hne
          (hhalts₁ m b b hb hb)

end Reader

end LetTyping
