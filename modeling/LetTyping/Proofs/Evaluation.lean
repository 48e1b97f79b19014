import LetTyping.Infer
import LetTyping.Proofs.Table

/-!
# Computations, step by step

What the computations of inference do to a state, one step at a time: every rule and every node has
an equation that names the states in between.

## Main definitions

* `State.next`, `State.unified`, `State.logged` — the states after the basic operations.
* `ResolutionRun` — the runs of `resolveNames`, one constructor for every way to go on.

## Main results

* `equateAll_cons`, `bindParams_cons` — the rules that recur on lists.
* `resolutionRun` — every way that resolving names can go.
* `infer_known`, `infer_apply`, `infer_fn`, … — one equation for every kind of node.
* `inferAll_cons`, `inferStatements_cons` — the equations for sequences of nodes.
-/

namespace LetTyping

/-! ### The state -/

/-- The state after one more allocation. -/
def State.next (st : State) : State := { st with count := st.count + 1 }

/-- The state after an attempt to make two types equal. -/
def State.unified (st : State) (a b : Ty) : State := { st with subst := (unify st.subst a b).2 }

/-- The state after a report. -/
def State.logged (st : State) (event : Event) : State := { st with log := event :: st.log }

theorem freshTagged_eq (tag : Option String) (st : State) :
    freshTagged tag st = (.var ⟨st.count, tag⟩, st.next) := rfl

theorem unifyTypes_eq (a b : Ty) (st : State) :
    unifyTypes a b st = ((unify st.subst a b).1, st.unified a b) := rfl

/-! ### Sequences of computations -/

theorem State.bind_apply {α β : Type} (x : StateM State α) (f : α → StateM State β) (st : State) :
    (x >>= f) st = f (x st).1 (x st).2 := rfl

theorem Infer.bind_apply {α β : Type} (x : Infer α) (f : α → Infer β) (st : State) :
    (x >>= f) st =
      match x st with
      | (.ok a, st) => f a st
      | (.error problem, st) => (.error problem, st) := by
  simp only [bind, ExceptT.bind, ExceptT.mk, StateT.bind]
  rcases x st with ⟨_ | _, st⟩ <;> rfl

theorem Infer.lift_apply {α : Type} (x : StateM State α) (st : State) :
    (liftM x : Infer α) st = (.ok (x st).1, (x st).2) := rfl

theorem Resolve.bind_apply {α β : Type} (x : Resolve α) (f : α → Resolve β) (out : Context)
    (st : State) :
    (x >>= f) out st =
      match x out st with
      | ((.ok a, out), st) => f a out st
      | ((.error problem, out), st) => ((.error problem, out), st) := by
  simp only [bind, ExceptT.bind, ExceptT.mk, StateT.bind]
  rcases x out st with ⟨⟨_ | _, out⟩, st⟩ <;> rfl

theorem Resolve.lift_apply {α : Type} (x : StateM State α) (out : Context) (st : State) :
    (liftM x : Resolve α) out st = ((.ok (x st).1, out), (x st).2) := rfl

/-! ### Equations between types -/

theorem equate_eq (span : Span) (description : String) (a b : Ty) (st : State) :
    equate span description a b st =
      match (unify st.subst a b).1 with
      | .ok () => (.ok (), st.unified a b)
      | .error cause => (.error ⟨cause.whileChecking description, span⟩, st.unified a b) := by
  rw [equate, Infer.bind_apply, Infer.lift_apply, unifyTypes_eq]
  rcases (unify st.subst a b).1 with cause | _ <;> rfl

/-- Makes a type equal to some others, one after another. -/
def equateAll (span : Span) (description : String) (a : Ty) (bs : List Ty) : Infer Unit :=
  bs.forM fun b => equate span description a b

theorem equateAll_nil (span : Span) (description : String) (a : Ty) (st : State) :
    equateAll span description a [] st = (.ok (), st) := rfl

theorem equateAll_cons (span : Span) (description : String) (a b : Ty) (bs : List Ty) (st : State) :
    equateAll span description a (b :: bs) st =
      match equate span description a b st with
      | (.ok (), st) => equateAll span description a bs st
      | (.error problem, st) => (.error problem, st) := by
  rw [equateAll, List.forM, Infer.bind_apply]
  rcases equate span description a b st with ⟨_ | _, st⟩ <;> rfl

/-! ### The rules -/

theorem bindParams_nil (span : Span) (context : Context) (st : State) :
    bindParams span [] context st = (.ok ([], context), st) := rfl

theorem bindParams_cons (span : Span) (param : String) (params : List String) (context : Context)
    (st : State) :
    bindParams span (param :: params) context st =
      match equateAll span (parameterOf param) (.var ⟨st.count, none⟩) (context.uses param)
        st.next with
      | (.error problem, st) => (.error problem, st)
      | (.ok (), st₁) =>
        match bindParams span params (Table.erase context param) st₁ with
        | (.error problem, st) => (.error problem, st)
        | (.ok (ts, context), st₂) => (.ok (.var ⟨st.count, none⟩ :: ts, context), st₂) := by
  rw [bindParams, Infer.bind_apply, Infer.lift_apply, fresh, freshTagged_eq]
  simp only [Infer.bind_apply]
  rw [← equateAll]
  rcases equateAll _ _ _ _ _ with ⟨_ | _, st₁⟩
  · rfl
  · simp only
    rcases bindParams _ _ _ _ with ⟨_ | _, st₂⟩ <;> rfl

theorem fnTyping_eq (span : Span) (params : List String) (body : Typing) (st : State) :
    fnTyping span params body st =
      match bindParams span params body.context st with
      | (.error problem, st) => (.error problem, st)
      | (.ok (types, context), st) =>
        (.ok ⟨.arrow (.product types) body.ty, context, []⟩, st) := by
  rw [fnTyping, Infer.bind_apply]
  rcases bindParams _ _ _ _ with ⟨_ | _, st₂⟩ <;> rfl

theorem applyTypings_eq (span : Span) (fnRaw fn argRaw arg : Typing) (st : State) :
    applyTypings span fnRaw fn argRaw arg st =
      match (unify st.subst fn.ty (.arrow arg.ty (.var ⟨st.count, none⟩))).1 with
      | .ok () =>
        (⟨.var ⟨st.count, none⟩, fn.context.union arg.context, []⟩,
          st.next.unified fn.ty (.arrow arg.ty (.var ⟨st.count, none⟩)))
      | .error cause =>
        (.closed (.failure fnRaw.ty (.arrow argRaw.ty (.var ⟨st.count + 1, none⟩))),
          ((st.next.unified fn.ty (.arrow arg.ty (.var ⟨st.count, none⟩))).logged
            (.applicationFailed cause.message span.start)).next) := by
  rw [applyTypings]
  simp only [State.bind_apply, fresh, freshTagged_eq, unifyTypes_eq, State.next]
  rcases (unify _ _ _).1 with _ | _ <;> rfl

/-! ### Resolving names -/

theorem record_eq (event : Event) (st : State) : record event st = ((), st.logged event) := rfl

theorem meetUses_eq (span : Span) (name : String) (ty : Ty) (uses : List Ty) :
    meetUses span name ty uses = equateAll span (useOf name) ty uses := rfl

theorem resolveNames_nil (defined : Defined) (span : Span) (depth : Nat) (chain : List String)
    (out : Context) (st : State) :
    resolveNames defined span depth chain [] out st = ((.ok (), out), st) := by
  rw [resolveNames]
  rfl

theorem resolveNames_undeclared {defined : Defined} {name : String}
    (h : Table.get? defined name = none) (span : Span) (depth : Nat) (chain : List String)
    (uses : List Ty) (context : Context) (out : Context) (st : State) :
    resolveNames defined span depth chain ((name, uses) :: context) out st =
      resolveNames defined span depth chain context (Uses.passOut out name uses) st := by
  rw [resolveNames, List.forM, Resolve.bind_apply]
  simp only [h]
  rw [resolveNames]
  rfl

theorem resolveNames_recursive {defined : Defined} {name : String} {declared : Typing}
    (h : Table.get? defined name = some declared) {depth : Nat} {chain : List String}
    (hrec : name ∈ chain ∨ depth = 0) (span : Span) (uses : List Ty) (context : Context)
    (out : Context) (st : State) :
    resolveNames defined span depth chain ((name, uses) :: context) out st =
      ((.error ⟨.recursive name, span⟩, out), st) := by
  rw [resolveNames, List.forM, Resolve.bind_apply]
  simp only [h]
  by_cases hc : name ∈ chain
  · simp only [if_pos hc]
    rfl
  · obtain rfl := hrec.resolve_left hc
    simp only [if_neg hc]
    rfl

theorem resolveNames_declared {defined : Defined} {name : String} {declared : Typing}
    (h : Table.get? defined name = some declared) {chain : List String} (hc : name ∉ chain)
    (span : Span) (depth : Nat) (uses : List Ty) (context : Context) (out : Context) (st : State) :
    resolveNames defined span (depth + 1) chain ((name, uses) :: context) out st =
      match equateAll span (useOf name) (instantiate declared st).1.ty uses
        ((instantiate declared st).2.logged (.resolved name uses.length)) with
      | (.error problem, st) => ((.error problem, out), st)
      | (.ok (), st₁) =>
        match resolveNames defined span depth (name :: chain) (instantiate declared st).1.context
          out st₁ with
        | ((.error problem, out), st) => ((.error problem, out), st)
        | ((.ok (), out), st) => resolveNames defined span (depth + 1) chain context out st := by
  conv => lhs; rw [resolveNames, List.forM, Resolve.bind_apply]
  conv => rhs; rw [resolveNames.eq_def defined span (depth + 1) chain context]
  simp only [h, if_neg hc, Resolve.bind_apply, Resolve.lift_apply, Infer.collecting, record_eq,
    meetUses_eq]
  rcases equateAll _ _ _ _ _ with ⟨_ | _, st₁⟩
  · rfl
  · simp only
    rcases resolveNames _ _ _ _ _ _ _ with ⟨⟨_ | _, out₁⟩, st₂⟩ <;> rfl

/-- The runs of `resolveNames`, one constructor for every way to go on. -/
inductive ResolutionRun (defined : Defined) (span : Span) :
    Nat → List String → Context → Context → State → Outcome Unit Context × State → Prop
  | nil {depth chain out st} : ResolutionRun defined span depth chain [] out st ((.ok (), out), st)
  /-- An undeclared name passes out. -/
  | undeclared {depth chain name uses context out st res} : Table.get? defined name = none →
      ResolutionRun defined span depth chain context (Uses.passOut out name uses) st res →
      ResolutionRun defined span depth chain ((name, uses) :: context) out st res
  /-- A declared name comes up again while it is being resolved. -/
  | recursive {depth chain name uses context out st declared} :
      Table.get? defined name = some declared → name ∈ chain ∨ depth = 0 →
      ResolutionRun defined span depth chain ((name, uses) :: context) out st
        ((.error ⟨.recursive name, span⟩, out), st)
  /-- The type of the instance differs from a use. -/
  | clash {depth chain name uses context out st declared problem st₁} :
      Table.get? defined name = some declared → name ∉ chain →
      equateAll span (useOf name) (instantiate declared st).1.ty uses
        ((instantiate declared st).2.logged (.resolved name uses.length)) =
          (.error problem, st₁) →
      ResolutionRun defined span (depth + 1) chain ((name, uses) :: context) out st
        ((.error problem, out), st₁)
  /-- The names of the declaration cannot be resolved. -/
  | fail {depth chain name uses context out st declared st₁ problem out₁ st₂} :
      Table.get? defined name = some declared → name ∉ chain →
      equateAll span (useOf name) (instantiate declared st).1.ty uses
        ((instantiate declared st).2.logged (.resolved name uses.length)) = (.ok (), st₁) →
      ResolutionRun defined span depth (name :: chain) (instantiate declared st).1.context out st₁
        ((.error problem, out₁), st₂) →
      ResolutionRun defined span (depth + 1) chain ((name, uses) :: context) out st
        ((.error problem, out₁), st₂)
  /-- A declared name is resolved, and the other names follow. -/
  | declared {depth chain name uses context out st declared st₁ out₁ st₂ res} :
      Table.get? defined name = some declared → name ∉ chain →
      equateAll span (useOf name) (instantiate declared st).1.ty uses
        ((instantiate declared st).2.logged (.resolved name uses.length)) = (.ok (), st₁) →
      ResolutionRun defined span depth (name :: chain) (instantiate declared st).1.context out st₁
        ((.ok (), out₁), st₂) →
      ResolutionRun defined span (depth + 1) chain context out₁ st₂ res →
      ResolutionRun defined span (depth + 1) chain ((name, uses) :: context) out st res

/-- **Every way that resolving names can go.** -/
theorem resolutionRun (defined : Defined) (span : Span) (depth : Nat) (chain : List String)
    (context out : Context) (st : State) :
    ResolutionRun defined span depth chain context out st
      (resolveNames defined span depth chain context out st) := by
  induction depth generalizing chain context out st with
  -- outer induction on the depth, inner one on the names that are left at this depth
  | zero =>
    induction context generalizing out with
    | nil =>
      rw [resolveNames_nil]
      exact .nil
    | cons entry context ih =>
      obtain ⟨name, uses⟩ := entry
      cases hget : Table.get? defined name with
      | none =>
        rw [resolveNames_undeclared hget]
        exact .undeclared hget (ih _)
      | some declared =>
        -- without depth that is left, every declared name counts as recursive
        rw [resolveNames_recursive hget (Or.inr rfl)]
        exact .recursive hget (Or.inr rfl)
  | succ depth ihd =>
    induction context generalizing out st with
    | nil =>
      rw [resolveNames_nil]
      exact .nil
    | cons entry context ih =>
      obtain ⟨name, uses⟩ := entry
      cases hget : Table.get? defined name with
      | none =>
        rw [resolveNames_undeclared hget]
        exact .undeclared hget (ih _ _)
      | some declared =>
        by_cases hchain : name ∈ chain
        · rw [resolveNames_recursive hget (Or.inl hchain)]
          exact .recursive hget (Or.inl hchain)
        · rw [resolveNames_declared hget hchain]
          rcases heq : equateAll span (useOf name) (instantiate declared st).1.ty uses
            ((instantiate declared st).2.logged (.resolved name uses.length)) with ⟨_ | _, st₁⟩
          · exact .clash hget hchain heq
          · simp only
            -- the names of the instance are resolved one level below, with the name in the chain
            have hinner := ihd (name :: chain) (instantiate declared st).1.context out st₁
            rcases hres : resolveNames defined span depth (name :: chain)
              (instantiate declared st).1.context out st₁ with ⟨⟨_ | _, out₁⟩, st₂⟩ <;>
              rw [hres] at hinner
            · exact .fail hget hchain heq hinner
            · exact .declared hget hchain heq hinner (ih _ _)

theorem resolve_eq (out : Context) (defined : Defined) (span : Span) (context : Context)
    (st : State) :
    resolve out defined span context st =
      match resolveNames defined span defined.length [] context out st with
      | ((.ok (), out), st) => (.ok out, st)
      | ((.error problem, _), st) => (.error problem, st) := by
  rw [resolve, Infer.bind_apply, Infer.lift_apply, resolveInto]
  simp only [ExceptT.run, StateT.run]
  rcases resolveNames _ _ _ _ _ _ _ with ⟨⟨_ | _, out₁⟩, st₂⟩ <;> rfl

theorem absorb_eq (sofar : Typing) (span : Span) (stmt : Typing) (st : State) :
    absorb sofar span stmt st =
      match resolve sofar.context
        (Table.insertAll sofar.defined (instantiate stmt st).1.defined) span
        (instantiate stmt st).1.context (instantiate stmt st).2 with
      | (.error problem, st) => (.error problem, st)
      | (.ok context, st₁) =>
        (.ok ⟨(instantiate stmt st).1.ty, context,
          Table.insertAll sofar.defined (instantiate stmt st).1.defined⟩, st₁) := by
  rw [absorb, Infer.bind_apply, Infer.lift_apply]
  simp only [Infer.bind_apply]
  rcases resolve _ _ _ _ _ with ⟨_ | _, st₁⟩ <;> rfl

/-- A statement is taken in by resolving the names of its instance. -/
theorem absorb_run (sofar : Typing) (span : Span) (stmt : Typing) (st : State) :
    ∃ result out st',
      ResolutionRun (Table.insertAll sofar.defined (instantiate stmt st).1.defined) span
        (Table.insertAll sofar.defined (instantiate stmt st).1.defined).length []
        (instantiate stmt st).1.context sofar.context (instantiate stmt st).2
        ((result, out), st') ∧
      absorb sofar span stmt st = (result.map fun _ => ⟨(instantiate stmt st).1.ty, out,
        Table.insertAll sofar.defined (instantiate stmt st).1.defined⟩, st') := by
  have hrun := resolutionRun (Table.insertAll sofar.defined (instantiate stmt st).1.defined) span
    (Table.insertAll sofar.defined (instantiate stmt st).1.defined).length []
    (instantiate stmt st).1.context sofar.context (instantiate stmt st).2
  rw [absorb_eq, resolve_eq]
  rcases hres : resolveNames _ span _ [] _ sofar.context (instantiate stmt st).2 with
    ⟨⟨problem | _, out⟩, st'⟩ <;> rw [hres] at hrun
  · exact ⟨_, _, _, hrun, rfl⟩
  · exact ⟨_, _, _, hrun, rfl⟩

/-! ### Nodes -/

section Nodes

-- the defining equations, generated once for all the proofs below
attribute [local simp] infer inferAll inferStatements

variable {m : Mark} (h : m.typing = none)

include h

theorem infer_int (value : Int) (st : State) :
    infer (.int m value) st = ((Tree.int m value).settle (.ok (.closed .int)), st) := by
  rw [infer]
  simp only [Tree.label, h]
  rfl

theorem infer_var (name : String) (st : State) :
    infer (.var m name) st =
      ((Tree.var m name).settle (.ok ⟨.var ⟨st.count, some useTag⟩,
        .singleton name (.var ⟨st.count, some useTag⟩), []⟩), st.next) := by
  rw [infer]
  simp only [Tree.label, h]
  rfl

theorem infer_array (elems : List (Tree Mark)) (st : State) :
    infer (.array m elems) st = ((.error ⟨.arrayLiteral, m.span⟩, .array m elems), st) := by
  rw [infer]
  simp only [Tree.label, h]
  rfl

theorem infer_assign (name : String) (value : Tree Mark) (st : State) :
    infer (.assign m name value) st =
      ((.error ⟨.assignment name, m.span⟩, .assign m name value), st) := by
  rw [infer]
  simp only [Tree.label, h]
  rfl

theorem infer_tuple (elems : List (Tree Mark)) (st : State) :
    infer (.tuple m elems) st =
      match inferAll elems st with
      | ((result, elems), st) => ((Tree.tuple m elems).settle (result.map tupleTyping), st) := by
  rw [infer]
  simp only [Tree.label, h]
  rfl

theorem infer_apply (fn arg : Tree Mark) (st : State) :
    infer (.apply m fn arg) st =
      match infer fn st with
      | ((.error problem, fn), st) => ((.error problem, .apply m fn arg), st)
      | ((.ok fnRaw, fn), st₁) =>
        match infer arg (instantiate fnRaw st₁).2 with
        | ((.error problem, arg), st) => ((.error problem, .apply m fn arg), st)
        | ((.ok argRaw, arg), st₂) =>
          match applyTypings m.span fnRaw (instantiate fnRaw st₁).1 argRaw
            (instantiate argRaw st₂).1 (instantiate argRaw st₂).2 with
          | (typing, st) => ((Tree.apply m fn arg).settle (.ok typing), st) := by
  rw [infer]
  simp only [Tree.label, h, State.bind_apply]
  rcases infer fn st with ⟨⟨_ | fnRaw, fn⟩, st₁⟩
  · rfl
  · simp only [State.bind_apply]
    rcases infer arg _ with ⟨⟨_ | argRaw, arg⟩, st₂⟩ <;> rfl

theorem infer_fn (params : List String) (body : Tree Mark) (st : State) :
    infer (.fn m params body) st =
      match infer body st with
      | ((.error problem, body), st) => ((.error problem, .fn m params body), st)
      | ((.ok raw, body), st₁) =>
        match fnTyping m.span params (instantiate raw st₁).1 (instantiate raw st₁).2 with
        | (result, st) => ((Tree.fn m params body).settle result, st) := by
  rw [infer]
  simp only [Tree.label, h, State.bind_apply]
  rcases infer body st with ⟨⟨_ | raw, body⟩, st₁⟩ <;> rfl

theorem infer_decl (name : String) (value : Tree Mark) (st : State) :
    infer (.decl m name value) st =
      match infer value st with
      | ((result, value), st) =>
        ((Tree.decl m name value).settle (result.map (declTyping name)), st) := by
  rw [infer]
  simp only [Tree.label, h]
  rfl

theorem infer_ret (value : Tree Mark) (st : State) :
    infer (.ret m value) st =
      match infer value st with
      | ((result, value), st) => ((Tree.ret m value).settle result, st) := by
  rw [infer]
  simp only [Tree.label, h]
  rfl

theorem infer_block (stmts : List (Tree Mark)) (st : State) :
    infer (.block m stmts) st =
      match inferStatements (.closed .unit) stmts st with
      | ((result, stmts), st) => ((Tree.block m stmts).settle result, st) := by
  rw [infer]
  simp only [Tree.label, h]
  rfl

end Nodes

/-- A node whose typing is known is not inferred again. -/
theorem infer_known {t : Tree Mark} {T : Typing} (h : t.label.typing = some T) (st : State) :
    infer t st = ((.ok T, t), st) := by
  rw [infer.eq_def, h]
  rfl

theorem inferAll_nil (st : State) : inferAll [] st = ((.ok [], []), st) := rfl

theorem inferAll_cons (t : Tree Mark) (ts : List (Tree Mark)) (st : State) :
    inferAll (t :: ts) st =
      match infer t st with
      | ((.error problem, t), st) => ((.error problem, t :: ts), st)
      | ((.ok typing, t), st₁) =>
        match inferAll ts st₁ with
        | ((result, ts), st) => ((result.map (typing :: ·), t :: ts), st) := by
  rw [inferAll]
  simp only [State.bind_apply]
  rcases infer t st with ⟨⟨_ | typing, t⟩, st₁⟩ <;> rfl

theorem inferStatements_nil (sofar : Typing) (st : State) :
    inferStatements sofar [] st = ((.ok sofar, []), st) := rfl

theorem inferStatements_cons (sofar : Typing) (stmt : Tree Mark) (stmts : List (Tree Mark))
    (st : State) :
    inferStatements sofar (stmt :: stmts) st =
      match infer stmt (st.logged (.statement stmt.kind stmt.label.span.start)) with
      | ((.error problem, stmt), st) => ((.error problem, stmt :: stmts), st)
      | ((.ok raw, stmt), st₁) =>
        match absorb sofar stmt.label.span raw st₁ with
        | (.error problem, st) => ((.error problem, stmt :: stmts), st)
        | (.ok sofar, st₂) =>
          match inferStatements sofar stmts st₂ with
          | ((result, stmts), st) => ((result, stmt :: stmts), st) := by
  rw [inferStatements]
  simp only [State.bind_apply, record_eq]
  rcases infer stmt _ with ⟨⟨_ | raw, stmt⟩, st₁⟩
  · rfl
  · simp only [State.bind_apply, ExceptT.run]
    rcases absorb _ _ _ _ with ⟨_ | _, st₂⟩ <;> rfl

end LetTyping
