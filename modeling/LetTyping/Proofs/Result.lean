import LetTyping.Proofs.Memo

/-!
# Inference of new trees

For a tree without typings, inference is a computation that gives a typing or ends with a problem;
the tree that it leaves behind plays no part in it.  Every kind of node and every sequence of nodes
has an equation in terms of the nodes below.

## Main definitions

* `Tree.result` — the typing of a tree without typings.
* `results`, `blockResult` — the typings of some nodes, and the typing of a block's statements.

## Main results

* `Tree.result_apply`, `Tree.result_fn`, … — one equation for every kind of node.
* `blockResult_cons` — one statement after another.
-/

namespace LetTyping

/-- The typing of a tree without typings. -/
def Tree.result (n : Tree Span) : Infer Typing := fun st =>
  ((infer n.unmarked st).1.1, (infer n.unmarked st).2)

/-- The typings of some trees without typings, from left to right. -/
def results (ns : List (Tree Span)) : Infer (List Typing) := fun st =>
  ((inferAll (ns.map Tree.unmarked) st).1.1, (inferAll (ns.map Tree.unmarked) st).2)

/-- The typing of a block whose statements so far have the typing `sofar` and whose other statements
have no typings yet. -/
def blockResult (sofar : Typing) (ns : List (Tree Span)) : Infer Typing := fun st =>
  ((inferStatements sofar (ns.map Tree.unmarked) st).1.1,
    (inferStatements sofar (ns.map Tree.unmarked) st).2)

/-- A sequence of computations that gives a result. -/
theorem Infer.bind_ok {α β : Type} {x : Infer α} {f : α → Infer β} {st st' : State} {b : β}
    (h : (x >>= f) st = (.ok b, st')) : ∃ a st₁, x st = (.ok a, st₁) ∧ f a st₁ = (.ok b, st') := by
  rw [Infer.bind_apply] at h
  rcases hx : x st with ⟨problem | a, st₁⟩ <;> rw [hx] at h
  · cases h
  · exact ⟨a, st₁, rfl, h⟩

/-- A sequence of computations that ends with a problem, in its first part or in its second. -/
theorem Infer.bind_error {α β : Type} {x : Infer α} {f : α → Infer β} {st st' : State}
    {problem : Problem} (h : (x >>= f) st = (.error problem, st')) :
    x st = (.error problem, st') ∨
      ∃ a st₁, x st = (.ok a, st₁) ∧ f a st₁ = (.error problem, st') := by
  rw [Infer.bind_apply] at h
  rcases hx : x st with ⟨problem' | a, st₁⟩ <;> rw [hx] at h
  · cases h
    exact Or.inl rfl
  · exact Or.inr ⟨a, st₁, rfl, h⟩

theorem Infer.bind_of_ok {α β : Type} {x : Infer α} {st st₁ : State} {a : α}
    (h : x st = (.ok a, st₁)) (f : α → Infer β) : (x >>= f) st = f a st₁ := by
  rw [Infer.bind_apply, h]

theorem Infer.bind_of_error {α β : Type} {x : Infer α} {st st₁ : State} {problem : Problem}
    (h : x st = (.error problem, st₁)) (f : α → Infer β) :
    (x >>= f) st = (.error problem, st₁) := by
  rw [Infer.bind_apply, h]

/-- A computation that always gives a result, followed by another one. -/
theorem Infer.lift_bind_apply {α β : Type} (x : StateM State α) (f : α → Infer β) (st : State) :
    ((liftM x : Infer α) >>= f) st = f (x st).1 (x st).2 := by
  rw [Infer.bind_apply, Infer.lift_apply]

theorem Tree.result_of_infer {n : Tree Span} {st st' : State} {r : Except Problem Typing}
    {t' : Tree Mark} (h : infer n.unmarked st = ((r, t'), st')) : n.result st = (r, st') := by
  rw [result, h]

/-! ### Sequences -/

theorem results_cons (n : Tree Span) (ns : List (Tree Span)) :
    results (n :: ns) = do return (← n.result) :: (← results ns) := by
  funext st
  rw [results, List.map_cons, inferAll_cons, Infer.bind_apply, Tree.result]
  rcases infer n.unmarked st with ⟨⟨problem | T, t'⟩, st₁⟩
  · rfl
  · simp only [Infer.bind_apply, results]
    rcases inferAll (ns.map Tree.unmarked) st₁ with ⟨⟨problem | Ts, ts'⟩, st₂⟩ <;> rfl

/-- Inference leaves a node where it stands. -/
theorem infer_span (n : Tree Span) (st : State) :
    (infer n.unmarked st).1.2.label.span = n.label := by
  have h := congrArg Tree.label (infer_completes n.unmarked st).erase_eq
  rwa [Tree.erase_unmarked, Tree.erase, Tree.label_map] at h

@[simp] theorem Tree.kind_unmarked (n : Tree Span) : n.unmarked.kind = n.kind := by
  cases n <;> rfl

@[simp] theorem Tree.label_unmarked (n : Tree Span) : n.unmarked.label = ⟨n.label, none⟩ :=
  label_map _ n

theorem blockResult_cons (sofar : Typing) (n : Tree Span) (ns : List (Tree Span)) :
    blockResult sofar (n :: ns) = (do
      record (.statement n.kind n.label.start)
      let raw ← n.result
      let sofar ← absorb sofar n.label raw
      blockResult sofar ns) := by
  funext st
  have hspan := infer_span n (st.logged (.statement n.kind n.label.start))
  rw [blockResult, List.map_cons, inferStatements_cons, Infer.bind_apply, Infer.lift_apply,
    record_eq]
  simp only [Infer.bind_apply, Tree.result, Tree.kind_unmarked, Tree.label_unmarked]
  rcases hres : infer n.unmarked _ with ⟨⟨problem | raw, t'⟩, st₁⟩
  · rfl
  · rw [hres] at hspan
    simp only at hspan ⊢
    rw [hspan]
    rcases absorb sofar n.label raw st₁ with ⟨problem | sofar', st₂⟩ <;> rfl

/-! ### Nodes -/

namespace Tree

variable (l : Span) (name : String) (params : List String) (n arg : Tree Span)
  (ns : List (Tree Span))

theorem result_int (value : Int) : (int l value).result = pure (.closed .int) := by
  funext st
  rw [result, unmarked_int, infer_int rfl]
  rfl

theorem result_var : (var l name).result = useTyping name := by
  funext st
  rw [result, unmarked_var, infer_var rfl]
  rfl

theorem result_tuple : (tuple l ns).result = do return tupleTyping (← results ns) := by
  funext st
  rw [result, unmarked_tuple, infer_tuple rfl, Infer.bind_apply, results]
  rcases inferAll (ns.map unmarked) st with ⟨⟨problem | Ts, ts'⟩, st₁⟩ <;> rfl

theorem result_array : (array l ns).result = throw ⟨.arrayLiteral, l⟩ := by
  funext st
  rw [result, unmarked_array, infer_array rfl]
  rfl

theorem result_assign : (assign l name n).result = throw ⟨.assignment name, l⟩ := by
  funext st
  rw [result, unmarked_assign, infer_assign rfl]
  rfl

theorem result_apply : (apply l n arg).result = (do
    let fnRaw ← n.result
    let fnCopy ← instantiate fnRaw
    let argRaw ← arg.result
    let argCopy ← instantiate argRaw
    applyTypings l fnRaw fnCopy argRaw argCopy) := by
  funext st
  rw [result, unmarked_apply, infer_apply rfl, Infer.bind_apply, result]
  rcases infer n.unmarked st with ⟨⟨problem | fnRaw, fn'⟩, st₁⟩
  · rfl
  · simp only [Infer.bind_apply, Infer.lift_apply, result]
    rcases infer arg.unmarked (instantiate fnRaw st₁).2 with ⟨⟨problem | argRaw, arg'⟩, st₂⟩ <;> rfl

theorem result_fn : (fn l params n).result = (do
    let raw ← n.result
    let copy ← instantiate raw
    fnTyping l params copy) := by
  funext st
  rw [result, unmarked_fn, infer_fn rfl, Infer.bind_apply, result]
  rcases infer n.unmarked st with ⟨⟨problem | raw, n'⟩, st₁⟩
  · rfl
  · simp only [Infer.bind_apply, Infer.lift_apply]
    rcases fnTyping l params (instantiate raw st₁).1 (instantiate raw st₁).2 with ⟨r, st₂⟩
    rw [settle_fst]

theorem result_decl : (decl l name n).result = do return declTyping name (← n.result) := by
  funext st
  rw [result, unmarked_decl, infer_decl rfl, Infer.bind_apply, result]
  rcases infer n.unmarked st with ⟨⟨problem | raw, n'⟩, st₁⟩ <;> rfl

theorem result_ret : (ret l n).result = n.result := by
  funext st
  rw [result, unmarked_ret, infer_ret rfl, result]
  rcases infer n.unmarked st with ⟨⟨r, n'⟩, st₁⟩
  rw [settle_fst]

theorem result_block : (block l ns).result = blockResult (.closed .unit) ns := by
  funext st
  rw [result, unmarked_block, infer_block rfl, blockResult]
  rcases inferStatements (.closed .unit) (ns.map unmarked) st with ⟨⟨r, ns'⟩, st₁⟩
  rw [settle_fst]

end Tree

end LetTyping
