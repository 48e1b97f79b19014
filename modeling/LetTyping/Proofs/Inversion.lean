import LetTyping.Proofs.Evaluation
import LetTyping.Proofs.Tree

/-!
# Runs that find a typing

What must have happened when inference finds a typing for a new node: the nodes below have been
inferred one after another, in states that follow each other, and the rule of the node has made its
typing from theirs.  What holds of all successful runs follows by induction on the tree, with one of
these statements in each case.

## Main results

* `inferAll_cons_ok`, `inferStatements_cons_ok` — sequences of nodes.
* `infer_tuple_ok`, `infer_apply_ok`, `infer_fn_ok`, `infer_decl_ok`, `infer_ret_ok`,
  `infer_block_ok` — one statement for every kind of node that has nodes below.
-/

namespace LetTyping

variable {st st' : State} {T : Typing} {t t' : Tree Mark} {ts ts' : List (Tree Mark)} {l : Span}

/-! ### Sequences -/

/-- Some nodes, from left to right. -/
theorem inferAll_cons_ok {Ts : List Typing} (h : inferAll (t :: ts) st = ((.ok Ts, ts'), st')) :
    ∃ T t₁ st₁ Us ts₁, infer t st = ((.ok T, t₁), st₁) ∧ inferAll ts st₁ = ((.ok Us, ts₁), st') ∧
      Ts = T :: Us ∧ ts' = t₁ :: ts₁ := by
  rw [inferAll_cons] at h
  rcases ht : infer t st with ⟨⟨problem | T, t₁⟩, st₁⟩ <;> rw [ht] at h
  · cases h
  simp only at h
  rcases hts : inferAll ts st₁ with ⟨⟨problem | Us, ts₁⟩, st₂⟩ <;> rw [hts] at h
  · cases h
  cases h
  exact ⟨T, t₁, st₁, Us, ts₁, rfl, hts, rfl, rfl⟩

/-- A statement is inferred and taken in before the ones behind it. -/
theorem inferStatements_cons_ok {sofar : Typing}
    (h : inferStatements sofar (t :: ts) st = ((.ok T, ts'), st')) :
    ∃ raw t₁ st₁ sofar₁ st₂ ts₁,
      infer t (st.logged (.statement t.kind t.label.span.start)) = ((.ok raw, t₁), st₁) ∧
      absorb sofar t₁.label.span raw st₁ = (.ok sofar₁, st₂) ∧
      inferStatements sofar₁ ts st₂ = ((.ok T, ts₁), st') ∧ ts' = t₁ :: ts₁ := by
  rw [inferStatements_cons] at h
  rcases ht : infer t _ with ⟨⟨problem | raw, t₁⟩, st₁⟩ <;> rw [ht] at h
  · cases h
  simp only at h
  rcases habs : absorb sofar t₁.label.span raw st₁ with ⟨problem | sofar₁, st₂⟩ <;> rw [habs] at h
  · cases h
  simp only at h
  rcases hts : inferStatements sofar₁ ts st₂ with ⟨⟨r, ts₁⟩, st₃⟩
  rw [hts] at h
  cases h
  exact ⟨raw, t₁, st₁, sofar₁, st₂, ts₁, rfl, habs, hts, rfl⟩

/-! ### Nodes -/

theorem infer_tuple_ok {elems : List (Tree Span)}
    (h : infer (Tree.tuple l elems).unmarked st = ((.ok T, t'), st')) :
    ∃ Ts ts, inferAll (elems.map Tree.unmarked) st = ((.ok Ts, ts), st') ∧ T = tupleTyping Ts ∧
      t' = .tuple ⟨l, some T⟩ ts := by
  rw [Tree.unmarked_tuple, infer_tuple rfl] at h
  rcases hall : inferAll (elems.map Tree.unmarked) st with ⟨⟨problem | Ts, ts⟩, st₁⟩ <;>
    rw [hall] at h
  · cases h
  obtain ⟨hT, rfl, rfl⟩ := Tree.settle_run h
  exact ⟨Ts, ts, rfl, (Except.ok.inj hT).symm, rfl⟩

/-- The argument is inferred after the function, and each of them is copied right after it. -/
theorem infer_apply_ok {fn arg : Tree Span}
    (h : infer (Tree.apply l fn arg).unmarked st = ((.ok T, t'), st')) :
    ∃ fnRaw fn' st₁ argRaw arg' st₂, infer fn.unmarked st = ((.ok fnRaw, fn'), st₁) ∧
      infer arg.unmarked (instantiate fnRaw st₁).2 = ((.ok argRaw, arg'), st₂) ∧
      applyTypings l fnRaw (instantiate fnRaw st₁).1 argRaw (instantiate argRaw st₂).1
        (instantiate argRaw st₂).2 = (T, st') ∧ t' = .apply ⟨l, some T⟩ fn' arg' := by
  rw [Tree.unmarked_apply, infer_apply rfl] at h
  rcases hfn : infer fn.unmarked st with ⟨⟨problem | fnRaw, fn'⟩, st₁⟩ <;> rw [hfn] at h
  · cases h
  simp only at h
  rcases harg : infer arg.unmarked (instantiate fnRaw st₁).2 with
    ⟨⟨problem | argRaw, arg'⟩, st₂⟩ <;> rw [harg] at h
  · cases h
  obtain ⟨hT, rfl, rfl⟩ := Tree.settle_run h
  exact ⟨fnRaw, fn', st₁, argRaw, arg', st₂, rfl, harg,
    Prod.ext (Except.ok.inj hT) rfl, rfl⟩

/-- The parameters are bound in a copy of the body's typing. -/
theorem infer_fn_ok {params : List String} {body : Tree Span}
    (h : infer (Tree.fn l params body).unmarked st = ((.ok T, t'), st')) :
    ∃ raw body' st₁ us c, infer body.unmarked st = ((.ok raw, body'), st₁) ∧
      bindParams l params (instantiate raw st₁).1.context (instantiate raw st₁).2 =
        (.ok (us, c), st') ∧
      T = ⟨.arrow (.product us) (instantiate raw st₁).1.ty, c, []⟩ ∧
      t' = .fn ⟨l, some T⟩ params body' := by
  rw [Tree.unmarked_fn, infer_fn rfl] at h
  rcases hbody : infer body.unmarked st with ⟨⟨problem | raw, body'⟩, st₁⟩ <;> rw [hbody] at h
  · cases h
  simp only [fnTyping_eq] at h
  rcases hbind : bindParams l params (instantiate raw st₁).1.context (instantiate raw st₁).2 with
    ⟨problem | ⟨us, c⟩, st₂⟩ <;> rw [hbind] at h
  · cases h
  obtain ⟨hT, rfl, rfl⟩ := Tree.settle_run h
  exact ⟨raw, body', st₁, us, c, rfl, hbind, (Except.ok.inj hT).symm, rfl⟩

theorem infer_decl_ok {name : String} {value : Tree Span}
    (h : infer (Tree.decl l name value).unmarked st = ((.ok T, t'), st')) :
    ∃ raw value', infer value.unmarked st = ((.ok raw, value'), st') ∧ T = declTyping name raw ∧
      t' = .decl ⟨l, some T⟩ name value' := by
  rw [Tree.unmarked_decl, infer_decl rfl] at h
  rcases hvalue : infer value.unmarked st with ⟨⟨problem | raw, value'⟩, st₁⟩ <;> rw [hvalue] at h
  · cases h
  obtain ⟨hT, rfl, rfl⟩ := Tree.settle_run h
  exact ⟨raw, value', rfl, (Except.ok.inj hT).symm, rfl⟩

/-- A returned value has the typing of the value. -/
theorem infer_ret_ok {value : Tree Span}
    (h : infer (Tree.ret l value).unmarked st = ((.ok T, t'), st')) :
    ∃ value', infer value.unmarked st = ((.ok T, value'), st') ∧
      t' = .ret ⟨l, some T⟩ value' := by
  rw [Tree.unmarked_ret, infer_ret rfl] at h
  rcases hvalue : infer value.unmarked st with ⟨⟨r, value'⟩, st₁⟩
  rw [hvalue] at h
  obtain ⟨rfl, rfl, rfl⟩ := Tree.settle_run h
  exact ⟨value', rfl, rfl⟩

/-- A block has the typing of its statements. -/
theorem infer_block_ok {stmts : List (Tree Span)}
    (h : infer (Tree.block l stmts).unmarked st = ((.ok T, t'), st')) :
    ∃ ts, inferStatements (.closed .unit) (stmts.map Tree.unmarked) st = ((.ok T, ts), st') ∧
      t' = .block ⟨l, some T⟩ ts := by
  rw [Tree.unmarked_block, infer_block rfl] at h
  rcases hstmts : inferStatements (.closed .unit) (stmts.map Tree.unmarked) st with ⟨⟨r, ts⟩, st₁⟩
  rw [hstmts] at h
  obtain ⟨rfl, rfl, rfl⟩ := Tree.settle_run h
  exact ⟨ts, rfl, rfl⟩

end LetTyping
