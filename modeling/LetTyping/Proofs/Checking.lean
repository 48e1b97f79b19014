import LetTyping.Proofs.Composition
import LetTyping.Proofs.Result
import LetTyping.Proofs.RoundTrip
import LetTyping.Proofs.Workspace

/-!
# Checks, step by step

A check that comes to its end has read a block, inferred it, resolved its free names against the
builtin ones, and collected problems and signatures.  Resolving the free names binds variables of
the program's own typing at most; collecting signatures binds new variables only.

## Main definitions

* `builtins` — the names that a program may use without declaring them.
* `checkResolved` — the end of a check whose free names are resolved.

## Main results

* `parse_block` — a program is a block.
* `checkInferred_eq` — what is left to do for a program once it is inferred.
* `check_run`, `checkInferred_run` — the steps of a check, and `check_of_infer`,
  `checkInferred_of_resolve` back from the steps to the check.
* `builtins_resolve_evolves`, `checkResolved_evolves` — **what the steps of a check touch.**
-/

namespace LetTyping

/-- The names that a program may use without declaring them. -/
def builtins (withPrelude : Bool) : StateM State Defined :=
  if withPrelude then prelude else pure []

variable {K M : Nat → Prop} {V : TVar → Prop} {F : Prop} {st st' : State}

theorem builtins_evolves (withPrelude : Bool) (h : Region K st) :
    Evolves K st (builtins withPrelude st).2 ∧
      ∀ e ∈ (builtins withPrelude st).1, e.2.All (Owns K (builtins withPrelude st).2) := by
  cases withPrelude with
  | false => exact ⟨h.evolves_refl, fun e he => absurd he List.not_mem_nil⟩
  | true => exact prelude_evolves h

/-- The builtin names have types of fresh variables, without marks of failure. -/
theorem builtins_madeOf (withPrelude : Bool) (h : Stock K V F st) :
    ∃ V', V ≤ V' ∧ Stock K V' F (builtins withPrelude st).2 ∧
      ∀ e ∈ (builtins withPrelude st).1, e.2.All (Ty.MadeOf V' F) := by
  cases withPrelude with
  | false => exact ⟨V, le_refl _, h, fun e he => absurd he List.not_mem_nil⟩
  | true =>
    refine ⟨_, fun _ => Or.inl, h.allocate (W := fun v => v.tag = none ∧ st.count ≤ v.id ∧
      v.id < st.count + 6) (prelude_evolves h.region).1 rfl (fun _ => And.right)
      ?_, ?_⟩
    · rintro ⟨n, tag⟩ ⟨m, tag'⟩ ⟨rfl, -⟩ ⟨rfl, -⟩ rfl
      rfl
    · exact prelude_all .int .unit
        (fun i hi => .var (Or.inr ⟨rfl, Nat.le_add_right _ _, Nat.add_lt_add_left hi _⟩))
        (fun _ => .product) fun _ _ hts hr => .arrow (.product hts) hr

/-! ### The steps -/

/-- A program is a block. -/
theorem parse_block [Alphabet] {source : String} {t : Tree Span} (h : parse source = .ok t) :
    ∃ l ss, t = .block l ss := by
  obtain ⟨ss, hshape, -⟩ := parsable_of_parse h
  cases t with
  | block l ss' => exact ⟨l, ss', rfl⟩
  | _ => cases hshape

theorem check_run [Alphabet] {withPrelude : Bool} {source : String} {c : Checked}
    {events : List Event} (h : check withPrelude source = (.ok c, events)) :
    ∃ tree T root st st', parse source = .ok tree ∧
      infer tree.unmarked {} = ((.ok T, root), st) ∧
      checkInferred withPrelude root T st = (.ok c, st') := by
  rw [check] at h
  rcases htree : parse source with fault | tree <;> rw [htree] at h
  · cases h
  simp only [ExceptT.run, StateT.run] at h
  rcases hcheck : checkTree withPrelude tree {} with ⟨problem | c', st'⟩ <;> rw [hcheck] at h
  · cases h
  cases h
  rw [checkTree, Infer.bind_apply, Infer.lift_apply] at hcheck
  rcases hinfer : infer tree.unmarked {} with ⟨⟨problem | T, root⟩, st⟩ <;> rw [hinfer] at hcheck
  · cases hcheck
  · exact ⟨tree, T, root, st, st', rfl, hinfer, hcheck⟩

/-- A check goes as inference and what is left to do go. -/
theorem check_of_infer [Alphabet] {withPrelude : Bool} {source : String} {tree : Tree Span}
    {T : Typing} {root : Tree Mark} {c : Checked} (hparse : parse source = .ok tree)
    (hinfer : infer tree.unmarked {} = ((.ok T, root), st))
    (hc : checkInferred withPrelude root T st = (.ok c, st')) :
    check withPrelude source = (.ok c, st'.log.reverse) := by
  have hcheck : checkTree withPrelude tree {} = (.ok c, st') := by
    rw [checkTree, Infer.bind_apply, Infer.lift_apply, hinfer]
    exact hc
  rw [check, hparse]
  simp only [ExceptT.run, StateT.run]
  rw [hcheck]
  rfl

theorem check_toOption [Alphabet] {withPrelude : Bool} {source : String} {tree : Tree Span}
    (hparse : parse source = .ok tree) :
    (check withPrelude source).1.toOption = (checkTree withPrelude tree {}).1.toOption := by
  rw [check, hparse]
  simp only [ExceptT.run, StateT.run]
  rcases checkTree withPrelude tree {} with ⟨problem | c, st⟩ <;> rfl

theorem check_of_parse [Alphabet] {withPrelude : Bool} {source : String} {tree : Tree Span}
    {c : Checked} (hparse : parse source = .ok tree)
    (hc : (checkTree withPrelude tree {}).1.toOption = some c) :
    check withPrelude source = (.ok c, (checkTree withPrelude tree {}).2.log.reverse) := by
  rw [check, hparse]
  simp only [ExceptT.run, StateT.run]
  rcases hrun : checkTree withPrelude tree {} with ⟨problem | c', st⟩ <;> rw [hrun] at hc <;>
    cases hc
  rfl

/-- The end of a check whose free names are resolved: problems and signatures are collected. -/
def checkResolved (scope : Defined) (root : Tree Mark) (T : Typing) (unresolved : Context)
    (resolved : State) : Checked :=
  let problems := ((Table.keys unresolved).map (unboundProblem root) ++
    failures resolved.subst root).mergeSort startsBefore
  let found := signatures [scope] root (resolved.logged (.preludeResolved unresolved.length))
  ⟨root, T, problems, found.1, found.2.logged (.checked problems.length)⟩

/-- What is left to do for a program is to resolve its free names; it ends there with a problem or
goes on to its end. -/
theorem checkInferred_eq (withPrelude : Bool) (root : Tree Mark) (T : Typing) (st : State) :
    checkInferred withPrelude root T st =
      match builtins withPrelude (st.logged (.inferred st.count T.context.length)) with
      | (scope, st₁) =>
        match resolve [] scope root.label.span T.context st₁ with
        | (.error problem, st₂) => (.error problem, st₂)
        | (.ok unresolved, resolved) =>
          (.ok (checkResolved scope root T unresolved resolved),
            (checkResolved scope root T unresolved resolved).state) := by
  rcases hscope : builtins withPrelude (st.logged (.inferred st.count T.context.length)) with
    ⟨scope, st₁⟩
  simp only
  rcases hresolve : resolve [] scope root.label.span T.context st₁ with
    ⟨problem | unresolved, resolved⟩
  all_goals
    unfold checkInferred
    cases withPrelude
  all_goals cases hscope
  · exact Infer.bind_of_error hresolve _
  · exact Infer.bind_of_error hresolve _
  · exact Infer.bind_of_ok hresolve _
  · exact Infer.bind_of_ok hresolve _

theorem checkInferred_run {withPrelude : Bool} {root : Tree Mark} {T : Typing} {c : Checked}
    (h : checkInferred withPrelude root T st = (.ok c, st')) :
    ∃ scope st₁ unresolved resolved,
      builtins withPrelude (st.logged (.inferred st.count T.context.length)) = (scope, st₁) ∧
      resolve [] scope root.label.span T.context st₁ = (.ok unresolved, resolved) ∧
      c = checkResolved scope root T unresolved resolved := by
  rw [checkInferred_eq] at h
  rcases hscope : builtins withPrelude (st.logged (.inferred st.count T.context.length)) with
    ⟨scope, st₁⟩
  rw [hscope] at h
  simp only at h
  rcases hresolve : resolve [] scope root.label.span T.context st₁ with
    ⟨problem | unresolved, resolved⟩ <;> rw [hresolve] at h <;> cases h
  exact ⟨scope, st₁, unresolved, resolved, rfl, hresolve, rfl⟩

/-- What is left to do for a program succeeds once its free names are resolved. -/
theorem checkInferred_of_resolve {withPrelude : Bool} {root : Tree Mark} {T : Typing}
    {scope : Defined} {st₁ resolved : State} {unresolved : Context}
    (hscope : builtins withPrelude (st.logged (.inferred st.count T.context.length)) = (scope, st₁))
    (hresolve : resolve [] scope root.label.span T.context st₁ = (.ok unresolved, resolved)) :
    ∃ st', checkInferred withPrelude root T st =
      (.ok (checkResolved scope root T unresolved resolved), st') := by
  rw [checkInferred_eq, hscope]
  simp only [hresolve]
  exact ⟨_, rfl⟩

/-! ### What the steps touch -/

variable {scope : Defined} {root : Tree Mark} {T : Typing} {unresolved : Context} {resolved : State}

theorem mem_problems_checkResolved {problem : Problem} :
    problem ∈ (checkResolved scope root T unresolved resolved).problems ↔
      (∃ name ∈ Table.keys unresolved, unboundProblem root name = problem) ∨
        problem ∈ failures resolved.subst root := by
  rw [checkResolved, List.mem_mergeSort, List.mem_append, List.mem_map]

/-- Resolving the free names of a program against the builtin ones touches the region of the
program's typing. -/
theorem builtins_resolve_evolves {withPrelude : Bool} {event : Event} {span : Span} {st₁ : State}
    (h : Region M st) (hT : T.All (Owns M st))
    (hscope : builtins withPrelude (st.logged event) = (scope, st₁))
    (hresolve : resolve [] scope span T.context st₁ = (.ok unresolved, resolved)) :
    Evolves M st resolved ∧ ∀ e ∈ scope, e.2.All (Owns Anywhere resolved) := by
  have h₀ := State.logged_evolves h event
  obtain ⟨h₁, hown₁⟩ := builtins_evolves withPrelude h₀.region
  rw [hscope] at h₁ hown₁
  have h₀₁ := h₀.trans h₁
  have hdef : ∀ e ∈ scope, e.2.All (Owns Anywhere st₁) := fun e he =>
    (hown₁ e he).imp fun _ ht => ht.anywhere
  have hc : Uses.All (Owns M st₁) T.context := fun e he t ht =>
    ((Typing.all_iff.mp hT).2.1 e he t ht).mono h₀₁.count_le
  obtain ⟨h₂, -⟩ := resolve_evolves h₁.region hdef hc span
  rw [hresolve] at h₂
  exact ⟨h₀₁.trans h₂, fun e he => (hdef e he).imp fun _ ht => ht.mono h₂.count_le⟩

/-- The typing of a program that is resolved against the builtin names is made as inference makes
typings. -/
theorem resolve_madeOf {withPrelude : Bool} {event : Event} {span : Span} {n : Tree Span}
    {st₁ : State} (h : Region Anywhere st) (hinfer : infer n.unmarked st = ((.ok T, root), st'))
    (hF : F ∨ root.Succeeded) (hscope : builtins withPrelude (st'.logged event) = (scope, st₁))
    (hresolve : resolve [] scope span T.context st₁ = (.ok unresolved, resolved)) :
    ∃ V, (T.apply resolved.subst).All (Ty.MadeOf V F) := by
  obtain ⟨V₁, -, hstock₁, hT⟩ := infer_madeOf n (h.stock F) hinfer hF
  obtain ⟨V₂, hle, hstock₂, hdef⟩ := builtins_madeOf withPrelude (hstock₁.logged event)
  rw [hscope] at hstock₂ hdef
  have hT₂ := hT.madeOf_mono hle
  have hrun := resolutionRun scope span scope.length [] T.context [] st₁
  rw [resolve_eq] at hresolve
  rcases hnames : resolveNames scope span scope.length [] T.context [] st₁ with
    ⟨⟨problem | _, out⟩, st₂⟩ <;> rw [hnames] at hresolve hrun
  · cases hresolve
  · cases hresolve
    obtain ⟨V₃, hle₃, hstock₃, -⟩ := hrun.madeOf hstock₂ hdef (Typing.all_iff.mp hT₂).2.1
      Uses.all_nil rfl
    exact ⟨V₃, hstock₃.apply_typing (hT₂.madeOf_mono hle₃)⟩

/-- Inference of a tree without typings leaves typings over the variables that it allocates. -/
theorem infer_unmarked_owned {n : Tree Span} (h : Region Anywhere st) {r : Except Problem Typing}
    {t' : Tree Mark} (hres : infer n.unmarked st = ((r, t'), st')) :
    t'.Owned (st.count ≤ ·) st' := by
  have hown := ((infer_evolves n.unmarked h (Tree.marked_unmarked n)).2 _ h.above
    (Tree.marked_unmarked n)).1
  rwa [hres] at hown

/-- Collecting problems and signatures binds new variables only. -/
theorem checkResolved_evolves (h : Region Anywhere resolved)
    (hscope : ∀ e ∈ scope, e.2.All (Owns Anywhere resolved))
    (hroot : root.Owned Anywhere resolved) :
    Evolves (resolved.count ≤ ·) resolved
      (checkResolved scope root T unresolved resolved).state := by
  have h₀ := State.logged_evolves h.above (.preludeResolved unresolved.length)
  have hscopes : ScopesOwned resolved [scope] := fun s hs => by rwa [List.mem_singleton.mp hs]
  have h₁ := signatures_evolves root (h₀.region_of h) hscopes hroot
  exact (h₀.step h₁).trans (State.logged_evolves (h₀.step h₁).region _)

/-- The typing of a program is settled when its free names are. -/
theorem checkResolved_apply {withPrelude : Bool} {event : Event} {span : Span} {n : Tree Span}
    {st₁ : State} (h : Region Anywhere st) (hinfer : infer n.unmarked st = ((.ok T, root), st'))
    (hscope : builtins withPrelude (st'.logged event) = (scope, st₁))
    (hresolve : resolve [] scope span T.context st₁ = (.ok unresolved, resolved)) :
    Evolves Anywhere st' resolved ∧
      T.apply (checkResolved scope root T unresolved resolved).state.subst =
        T.apply resolved.subst := by
  obtain ⟨hev₁, hT₁⟩ := infer_unmarked_evolves h hinfer
  have hT : T.All (Owns Anywhere st') := (hT₁ T rfl).imp fun _ ht => ht.anywhere
  obtain ⟨hev, hdef⟩ := builtins_resolve_evolves hev₁.region.all hT hscope hresolve
  have hroot : root.Owned Anywhere resolved := (infer_unmarked_owned h hinfer).imp fun _ _ hS =>
    hS.imp fun _ ht => (ht.mono hev.count_le).anywhere
  exact ⟨hev, (checkResolved_evolves hev.region hdef hroot).apply_typing hev.region
    (hT.imp fun _ ht => ht.mono hev.count_le)⟩

end LetTyping
