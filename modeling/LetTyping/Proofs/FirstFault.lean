import LetTyping.Proofs.Lookahead

/-!
# Faults are found at the first impossible token

When tokens are no program, the parser's fault is at the first token that no program has there: the
tokens before it begin a program, and with it they begin none.  If every token is possible, the
fault is at the end: the tokens begin a program and are none.

The parser commits itself early in one place only, where it looks at two tokens to tell an
assignment from an expression; a name is possible wherever this is done, so the fault is behind it.

## Main definitions

* `Accepted` — the tokens are a program.

## Main results

* `accepted_iff` — the tokens up to the end of the text decide, without their places.
* `Reader.program_stops` — programs are read without looking further than the next token.
* `parseTokens_fault_first` — **faults are found at the first impossible token.**
-/

namespace LetTyping

/-- The parser accepts the tokens. -/
def Accepted (tokens : List (Located Token)) : Prop := ∃ t, parseTokens tokens = .ok t

/-- Tokens that begin with one before the end of the text still do when they are cut there. -/
theorem head?_beforeEnd {rest rest' : List (Located Token)} (hrest : Unended rest)
    (hhead : rest'.head? = rest.head?) : (beforeEnd rest').head? = rest'.head? := by
  cases rest' with
  | nil => rfl
  | cons t s =>
    have ht : t ∈ rest := List.mem_of_mem_head? hhead.symm
    simp [beforeEnd, hrest t ht]

/-- The reader of programs succeeds on what the grammar generates, wherever the text ends. -/
theorem Reader.program_ok_iff (stop : Span) {bound : Nat} {s : List (Located Token)}
    (hs : Unended s) (hbound : s.length < bound) :
    (∃ r, program stop bound s = .ok r) ↔ ∃ ss, Generates AnyFollow (.stmts ss) (kinds s) [] := by
  constructor
  · rintro ⟨r, hrun⟩
    obtain ⟨ss, -, hss⟩ := program_ok hs hrun
    exact ⟨ss, hss.mono fun _ _ => trivial⟩
  · rintro ⟨ss, hss⟩
    obtain ⟨ss', hss'⟩ := hss.exists_noCall
    have hreads : Reads Tree.shape (program stop bound) s (.block () ss') [] :=
      program_reads hss' hbound
    obtain ⟨t, s', ht, -⟩ := hreads
    exact ⟨(t, s'), ht⟩

/-- The tokens up to the end of the text decide, and their places play no part. -/
theorem accepted_iff {tokens : List (Located Token)} :
    Accepted tokens ↔ ∃ ss, Generates AnyFollow (.stmts ss) (kinds (beforeEnd tokens)) [] := by
  rw [Accepted, parseTokens_eq, ← Reader.program_ok_iff (endSpan tokens) (beforeEnd_unended tokens)
    (beforeEnd_length_lt tokens)]
  cases Reader.program (endSpan tokens) (tokens.length + 1) (beforeEnd tokens) with
  | error e => simp [Except.map]
  | ok r => simp [Except.map]

theorem eof_not_mem_paramTokens (names : List String) : .eof ∉ paramTokens names := by
  unfold paramTokens
  induction names with
  | nil => simp
  | cons name names ih => cases names <;> simp_all

/-- No phrase has the end of the text in it. -/
theorem Generates.eof_mem {follow : List Token → Prop} {ph : Phrase} {ts rest : List Token}
    (h : Generates follow ph ts rest) : .eof ∈ ts → .eof ∈ rest := by
  induction h with
  | fn _ ih => simpa [eof_not_mem_paramTokens] using ih
  | _ => simp_all

theorem Reader.program_stops (stop : Span) (s : List (Located Token)) :
    Stops stop (Makes .stmts) (fun b _ => program stop b) s := by
  obtain ⟨first, hstart⟩ := start_halts stop s
  obtain ⟨us, rest, r, rfl, hfits, hhalts⟩ :=
    statements_stops (fun s _ => expr_stops s) false s (Nat.lt_succ_self _)
  refine ⟨us, rest, r.map fun stmts =>
    .block ⟨first, (stmts.getLast?.map fun s => s.label.stop).getD first⟩ stmts, rfl,
    hfits.map _, fun m b n hb hn => ?_⟩
  exact (hstart m).after ((hhalts m b b hb hb).map _)

/-- What begins statements begins a program. -/
theorem Begins.accepted {before : List (Located Token)} {stop : Located Token}
    (hstop : stop.val = .eof) (h : Begins (Makes .stmts) (kinds before)) :
    ∃ more, (∀ token ∈ more, token.val ≠ .eof) ∧ Accepted (before ++ more ++ [stop]) := by
  obtain ⟨more, ss, hss⟩ := h
  have hprogram := hss []
  rw [List.append_nil] at hprogram
  have hnone : ∀ token ∈ kinds before ++ more, token ≠ .eof := fun token hmem heq =>
    absurd (hprogram.eof_mem (heq ▸ hmem)) List.not_mem_nil
  let located : List (Located Token) := more.map fun token => ⟨token, ⟨0, 0⟩⟩
  have hkinds : kinds (before ++ located) = kinds before ++ more := by
    simp [located, kinds, Function.comp_def]
  have hlocated : Unended (before ++ located) := fun token hmem =>
    hnone token.val (hkinds ▸ List.mem_map_of_mem hmem)
  refine ⟨located, fun token hmem => hlocated token (List.mem_append_right _ hmem), ?_⟩
  rw [accepted_iff, beforeEnd_of_end hlocated hstop, hkinds]
  exact ⟨ss, hprogram⟩

section Fault

variable {body : List (Located Token)} {stop : Located Token} {e : Located ParseCause}
variable (hbody : ∀ token ∈ body, token.val ≠ .eof) (hstop : stop.val = .eof)

include hbody hstop

/-- A fault is where the reader of programs stops, and tokens that go on alike are no program. -/
theorem parseTokens_stops (h : parseTokens (body ++ [stop]) = .error e) :
    ∃ us rest expected, body = us ++ rest ∧ Begins (Makes .stmts) (kinds us) ∧
      Reader.unexpected stop.span expected rest = (.error e : Except _ (Tree Span × _)) ∧
      ∀ rest', rest'.head? = rest.head? → ¬Accepted (us ++ rest') := by
  obtain ⟨us, rest, r, rfl, hfits, hhalts⟩ := Reader.program_stops stop.span body
  have hrun : ∀ rest' m, rest'.head? = rest.head? → (us ++ rest').length < m →
      Reader.program stop.span m (us ++ rest') = Reader.verdict stop.span r rest' :=
    fun rest' m hhead hlen => hhalts m m m (Nat.le_refl m) (Nat.le_refl m) rest' hhead hlen
  rw [parseTokens_body hbody hstop, hrun rest _ rfl (by omega)] at h
  cases r with
  | ok t => cases h
  | error expected =>
    have hrest : Unended rest := fun token hmem => hbody token (List.mem_append_right _ hmem)
    refine ⟨us, rest, expected, rfl, hfits, ?_, fun rest' hhead haccepted => ?_⟩
    · obtain ⟨fault, hfault⟩ := Reader.unexpected_eq_error stop.span expected rest
      rw [Reader.verdict, hfault] at h
      cases h
      exact hfault _
    · have hus : Unended us := fun token hmem => hbody token (List.mem_append_left _ hmem)
      -- tokens that are accepted can be read, and those that go on alike stop alike
      obtain ⟨r, hr⟩ := (Reader.program_ok_iff stop.span (beforeEnd_unended _)
        (Nat.lt_succ_self _)).mpr (accepted_iff.mp haccepted)
      rw [beforeEnd_append hus,
        hrun _ _ ((head?_beforeEnd hrest hhead).trans hhead) (Nat.lt_succ_self _)] at hr
      exact Reader.unexpected_ne_ok hr

/-- **Faults are found at the first impossible token.**  The tokens before the fault begin a program
and with the token at the fault they begin none, unless this is the end of the text.  The fault says
that the text ends too early exactly if it is at the end, which is the case exactly if the tokens
are not a program but begin one. -/
theorem parseTokens_fault_first (h : parseTokens (body ++ [stop]) = .error e) :
    ∃ before t after, body ++ [stop] = before ++ t :: after ∧ e.span = t.span ∧
      (∃ more, (∀ token ∈ more, token.val ≠ .eof) ∧ Accepted (before ++ more ++ [stop])) ∧
      (t.val ≠ .eof → ∀ more, ¬Accepted (before ++ t :: more)) ∧
      (e.val = .endOfInput ↔ t.val = .eof) ∧
      (e.val = .endOfInput ↔ (∃ more, more ≠ [] ∧ (∀ token ∈ more, token.val ≠ .eof) ∧
        Accepted (body ++ more ++ [stop])) ∧ ¬Accepted (body ++ [stop])) := by
  have hnot : ¬Accepted (body ++ [stop]) := by
    rintro ⟨t, ht⟩
    cases h.symm.trans ht
  -- the parser stops between the tokens `us`, which begin a program, and the rest
  obtain ⟨us, rest, expected, rfl, hbegins, hfault, hdead⟩ := parseTokens_stops hbody hstop h
  obtain ⟨more, hmore, haccepted⟩ := hbegins.accepted hstop
  cases rest with
  | nil =>
    -- nothing is left: the fault is at the end, and the tokens can be completed, though not by
    -- nothing
    cases hfault
    refine ⟨us, stop, [], by simp, rfl, ⟨more, hmore, haccepted⟩, fun hne => absurd hstop hne,
      iff_of_true rfl hstop, iff_of_true rfl ⟨⟨more, ?_, hmore, by simpa using haccepted⟩, hnot⟩⟩
    rintro rfl
    exact hnot (by simpa using haccepted)
  | cons t after =>
    have ht : t.val ≠ .eof := hbody t (by simp)
    simp only [Reader.unexpected, if_neg ht] at hfault
    cases hfault
    -- a token is left, and no program goes on with it
    refine ⟨us, t, after ++ [stop], by simp, rfl, ⟨more, hmore, haccepted⟩,
      fun _ more => hdead (t :: more) rfl, iff_of_false (by simp) ht, iff_of_false (by simp) ?_⟩
    rintro ⟨⟨more', -, -, haccepted'⟩, -⟩
    exact hdead (t :: (after ++ more' ++ [stop])) rfl (by simpa using haccepted')

end Fault

/-- A parenthesis that is still open at the end of a declaration: without the semicolon the tokens
can be completed. -/
theorem parseTokens_fault_first_semicolon :
    let tokens : List Token := [.letWord, .ident "x", .equals, .openParen, .int 1, .semicolon]
    let body : List (Located Token) := tokens.zipIdx.map fun (token, i) => ⟨token, ⟨i, i + 1⟩⟩
    let stop : Located Token := ⟨.eof, ⟨6, 6⟩⟩
    parseTokens (body ++ [stop]) = .error ⟨.unexpected ";" ",", ⟨5, 6⟩⟩ ∧
      (∃ more, Accepted (body.take 5 ++ more ++ [stop])) ∧ ∀ more, ¬Accepted (body ++ more) := by
  intro tokens body stop
  have hfault : parseTokens (body ++ [stop]) = .error ⟨.unexpected ";" ",", ⟨5, 6⟩⟩ := rfl
  obtain ⟨before, t, after, hsplit, hspan, ⟨more, -, hmore⟩, hdead, -⟩ :=
    parseTokens_fault_first (by decide) rfl hfault
  have hget : (body ++ [stop])[before.length]? = some t := by rw [hsplit]; simp
  have hbefore : before = (body ++ [stop]).take before.length := by rw [hsplit]; simp
  -- the token is found by its place
  have hplace : ∀ n < 7, (body ++ [stop])[n]?.map Located.span = some ⟨5, 6⟩ → n = 5 := by decide
  have hlength : before.length < 7 := by
    have := congrArg List.length hsplit
    simp [body, tokens] at this
    omega
  have hfive := hplace before.length hlength (by rw [hget]; exact congrArg some hspan.symm)
  rw [hfive] at hget hbefore
  cases hget
  rw [hbefore] at hmore hdead
  exact ⟨hfault, ⟨more, hmore⟩, hdead (by decide)⟩

end LetTyping
