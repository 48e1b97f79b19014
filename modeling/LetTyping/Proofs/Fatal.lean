import LetTyping.Proofs.Checking
import LetTyping.Proofs.Names

/-!
# What stops the work on a program

Most of what is wrong with the types of a program is collected and reported together.  The work on a
program stops at few things: at array literals and assignments, which have no types; where a
parameter or a name is used at types that do not go together; and at declarations in terms of
themselves.  Each of them is blamed on a node of the program, and says what was being checked there.
Applications that fail and names that are declared nowhere never stop it.

Every node of a program is inferred before it has a typing, so a program with an array literal or an
assignment has none.

## Main definitions

* `TypeCause.Clashes` — types differ, or one contains itself, while something was being checked.
* `Blamed` — the problems that stop inference, each at the node it is blamed on.
* `Tree.isUntyped` — array literals and assignments.

## Main results

* `Tree.result_blamed` — inference stops at such problems only.
* `Tree.result_typed` — a tree with a typing has no array literals and no assignments.
* `check_fatal` — **what stops a check, and that it stops at every array literal and assignment.**
-/

namespace LetTyping

/-! ### Causes -/

/-- Two types differ that have to be equal, or a type would have to contain itself, while something
was being checked. -/
inductive TypeCause.Clashes (description : String) : TypeCause → Prop
  | mismatch (expected found : String) :
      Clashes description (.mismatch expected found (some description))
  | infinite (var ty : String) : Clashes description (.infinite var ty (some description))

/-- Unification does not know what is being checked; that is said once, by the rule that uses it. -/
theorem unify_clashes {s : Subst} {a b : Ty} {cause : TypeCause}
    (h : (unify s a b).1 = .error cause) (description : String) :
    (cause.whileChecking description).Clashes description := by
  rw [unify] at h
  rcases hres : Run.unifyWithin _ a b ⟨s, []⟩ with ⟨clash | _, r⟩ <;> rw [hres] at h
  · cases h
    cases clash with
    | mismatch => exact .mismatch _ _
    | infinite v t => exact .infinite _ _
  · cases h

theorem equateAll_clashes {span : Span} {description : String} {a : Ty} {bs : List Ty}
    {problem : Problem} : ∀ {st st' : State},
      equateAll span description a bs st = (.error problem, st') →
      problem.val.Clashes description ∧ problem.span = span := by
  induction bs with
  | nil =>
    intro st st' h
    cases h
  | cons b bs ih =>
    intro st st' h
    rw [equateAll_cons, equate_eq] at h
    rcases hunify : (unify st.subst a b).1 with cause | _ <;> rw [hunify] at h
    · cases h
      exact ⟨unify_clashes hunify description, rfl⟩
    · exact ih h

/-! ### Rules -/

/-- A parameter that cannot be bound is one of the function's. -/
theorem bindParams_clashes {span : Span} {problem : Problem} (params : List String) :
    ∀ {context : Context} {st st' : State},
      bindParams span params context st = (.error problem, st') →
      ∃ param ∈ params, problem.val.Clashes (parameterOf param) ∧ problem.span = span := by
  induction params with
  | nil =>
    intro context st st' h
    cases h
  | cons param params ih =>
    intro context st st' h
    rw [bindParams_cons] at h
    rcases heq : equateAll span (parameterOf param) (.var ⟨st.count, none⟩) (context.uses param)
      st.next with ⟨_ | _, st₁⟩ <;> rw [heq] at h
    -- the type of the parameter is met by its uses, and these are what clashes
    · cases h
      exact ⟨param, List.mem_cons_self, equateAll_clashes heq⟩
    simp only at h
    rcases hrest : bindParams span params (Table.erase context param) st₁ with ⟨_ | _, st₂⟩ <;>
      rw [hrest] at h <;> cases h
    obtain ⟨param', hmem, hclash⟩ := ih hrest
    exact ⟨param', List.mem_cons_of_mem _ hmem, hclash⟩

theorem fnTyping_clashes {span : Span} {params : List String} {body : Typing} {problem : Problem}
    {st st' : State} (h : fnTyping span params body st = (.error problem, st')) :
    ∃ param ∈ params, problem.val.Clashes (parameterOf param) ∧ problem.span = span := by
  rw [fnTyping_eq] at h
  rcases hbind : bindParams span params body.context st with ⟨_ | _, st₁⟩ <;> rw [hbind] at h <;>
    cases h
  exact bindParams_clashes params hbind

/-- Resolving names stops at a declared name: at its uses, or because it comes up again. -/
theorem ResolutionRun.stops {defined : Defined} {span : Span} {depth : Nat} {chain : List String}
    {context out : Context} {st : State} {res : Outcome Unit Context × State} {problem : Problem}
    (hrun : ResolutionRun defined span depth chain context out st res)
    (h : res.1.1 = .error problem) :
    ∃ name ∈ Table.keys defined,
      (problem.val.Clashes (useOf name) ∨ problem.val = .recursive name) ∧ problem.span = span := by
  induction hrun with
  | nil => cases h
  | undeclared _ _ ih => exact ih h
  | recursive hget _ =>
    cases h
    exact ⟨_, Table.mem_keys_of_get? hget, Or.inr rfl, rfl⟩
  | clash hget _ heq =>
    cases h
    obtain ⟨hclash, hspan⟩ := equateAll_clashes heq
    exact ⟨_, Table.mem_keys_of_get? hget, Or.inl hclash, hspan⟩
  | fail _ _ _ _ ih => exact ih h
  | declared _ _ _ _ _ _ ihrest => exact ihrest h

/-- Where no declaration uses a name, no name comes up again. -/
theorem ResolutionRun.stops_closed {defined : Defined} {span : Span} {depth : Nat}
    {chain : List String} {context out : Context} {st : State}
    {res : Outcome Unit Context × State} {problem : Problem}
    (hrun : ResolutionRun defined span depth chain context out st res)
    (hclosed : ∀ e ∈ defined, e.2.context = []) (hchain : chain = [])
    (hdepth : defined.length ≤ depth) (h : res.1.1 = .error problem) :
    ∃ name ∈ Table.keys defined, problem.val.Clashes (useOf name) ∧ problem.span = span := by
  -- so no instance has names to resolve, and the chain of names stays empty
  have hcopy : ∀ {name : String} {S : Typing} {st : State}, Table.get? defined name = some S →
      (instantiate S st).1.context = [] := by
    intro name S st hget
    change ((S.apply st.subst).apply _).context = []
    rw [Typing.apply, Typing.mapTypes_context, Typing.apply, Typing.mapTypes_context,
      hclosed _ (Table.mem_of_get? hget)]
    rfl
  induction hrun with
  | nil => cases h
  | undeclared _ _ ih => exact ih hchain hdepth h
  | recursive hget hrec =>
    have hpos := List.length_pos_of_mem (Table.mem_of_get? hget)
    rcases hrec with hmem | rfl
    · rw [hchain] at hmem
      cases hmem
    · omega
  | clash hget _ heq =>
    cases h
    obtain ⟨hclash, hspan⟩ := equateAll_clashes heq
    exact ⟨_, Table.mem_keys_of_get? hget, hclash, hspan⟩
  | fail hget _ _ hinner _ =>
    rw [hcopy hget] at hinner
    cases hinner
  | declared _ _ _ _ _ _ ihrest => exact ihrest hchain hdepth h

/-! ### Nodes -/

/-- The problems that stop inference, each at the node it is blamed on. -/
inductive Blamed (tree : Tree Span) : Problem → Prop
  /-- An array literal. -/
  | array {l : Span} {elems : List (Tree Span)} : .array l elems ∈ tree.subtrees →
      Blamed tree ⟨.arrayLiteral, l⟩
  /-- An assignment. -/
  | assign {l : Span} {name : String} {value : Tree Span} : .assign l name value ∈ tree.subtrees →
      Blamed tree ⟨.assignment name, l⟩
  /-- The uses of a parameter do not go together, at the function. -/
  | parameter {l : Span} {params : List String} {body : Tree Span} {param : String}
      {cause : TypeCause} : .fn l params body ∈ tree.subtrees → param ∈ params →
      cause.Clashes ("parameter '" ++ param ++ "'") → Blamed tree ⟨cause, l⟩
  /-- A use of a declared name does not go with the declaration, at a statement of a block. -/
  | use {l : Span} {stmts : List (Tree Span)} {stmt : Tree Span} {name : String}
      {cause : TypeCause} : .block l stmts ∈ tree.subtrees → stmt ∈ stmts → tree.Declaring name →
      cause.Clashes ("use of '" ++ name ++ "'") → Blamed tree ⟨cause, stmt.label⟩
  /-- A name is declared in terms of itself, at a statement of a block. -/
  | recursive {l : Span} {stmts : List (Tree Span)} {stmt : Tree Span} {name : String} :
      .block l stmts ∈ tree.subtrees → stmt ∈ stmts → tree.Declaring name →
      Blamed tree ⟨.recursive name, stmt.label⟩

/-- What is blamed on a node below is blamed on a node below the parent. -/
theorem Blamed.of_child {n c : Tree Span} {problem : Problem} (h : Blamed c problem)
    (hc : c ∈ n.children) : Blamed n problem := by
  cases h with
  | array hmem => exact .array (Tree.mem_subtrees_of_child hc hmem)
  | assign hmem => exact .assign (Tree.mem_subtrees_of_child hc hmem)
  | parameter hmem hparam hclash =>
    exact .parameter (Tree.mem_subtrees_of_child hc hmem) hparam hclash
  | use hmem hstmt hdecl hclash =>
    exact .use (Tree.mem_subtrees_of_child hc hmem) hstmt (hdecl.of_child hc) hclash
  | recursive hmem hstmt hdecl =>
    exact .recursive (Tree.mem_subtrees_of_child hc hmem) hstmt (hdecl.of_child hc)

theorem results_blamed {P : Problem → Prop} {ns : List (Tree Span)} {problem : Problem}
    (ih : ∀ n ∈ ns, ∀ {st st'}, n.result st = (.error problem, st') → P problem) :
    ∀ {st st'}, results ns st = (.error problem, st') → P problem := by
  induction ns with
  | nil =>
    intro st st' h
    cases h
  | cons n ns ihs =>
    intro st st' h
    rw [List.forall_mem_cons] at ih
    rw [results_cons] at h
    rcases Infer.bind_error h with h | ⟨T, st₁, -, h⟩
    · exact ih.1 h
    rcases Infer.bind_error h with h | ⟨Ts, st₂, -, h⟩
    · exact ihs ih.2 h
    · cases h

/-- A statement is not taken in because of a name that it or a statement before it declares. -/
theorem absorb_stops {P D : String → Prop} {sofar stmt : Typing} {span : Span} {st st' : State}
    {problem : Problem} (hsofar : sofar.Named P D) (hstmt : stmt.Named P D)
    (h : absorb sofar span stmt st = (.error problem, st')) :
    ∃ name, D name ∧ (problem.val.Clashes (useOf name) ∨ problem.val = .recursive name) ∧
      problem.span = span := by
  obtain ⟨result, out, st₁, hrun, heq⟩ := absorb_run sofar span stmt st
  rw [heq] at h
  cases result with
  | ok _ => cases h
  | error _ =>
    cases h
    obtain ⟨name, hname, hstops⟩ := hrun.stops rfl
    refine ⟨name, ?_, hstops⟩
    have hdeclared : ∀ {T : Typing}, T.Named P D → ∀ x ∈ Table.keys T.defined, D x := fun hT =>
      List.forall_mem_map.mpr fun e he => ((Typing.named_iff.mp hT).2 e he).1
    rcases Table.mem_keys_insertAll hname with hname | hname
    · exact hdeclared hsofar name hname
    · exact hdeclared (instantiate_named hstmt st) name hname

/-- The statements of a block are inferred and taken in one after another. -/
theorem blockResult_blamed {l : Span} {stmts ns : List (Tree Span)} {problem : Problem}
    (hns : ∀ n ∈ ns, n ∈ stmts)
    (ih : ∀ n ∈ ns, ∀ {st st'}, n.result st = (.error problem, st') → Blamed n problem) :
    ∀ {sofar st st'}, (Tree.block l stmts).Names sofar →
      blockResult sofar ns st = (.error problem, st') → Blamed (.block l stmts) problem := by
  induction ns with
  | nil =>
    intro sofar st st' _ h
    cases h
  | cons n ns ihs =>
    intro sofar st st' hsofar h
    rw [List.forall_mem_cons] at ih hns
    rw [blockResult_cons, Infer.lift_bind_apply] at h
    rcases Infer.bind_error h with h | ⟨raw, st₁, hn, h⟩
    · exact (ih.1 h).of_child hns.1
    have hraw : (Tree.block l stmts).Names raw := (n.result_named hn).of_child hns.1
    rcases Infer.bind_error h with habs | ⟨sofar', st₂, habs, h⟩
    · -- the statement itself is blamed, whichever declaration the name comes from
      obtain ⟨name, hdecl, hcause, hspan⟩ := absorb_stops hsofar hraw habs
      obtain ⟨cause, span⟩ := problem
      subst hspan
      rcases hcause with hclash | rfl
      · exact .use (Tree.mem_subtrees_self _) hns.1 hdecl hclash
      · exact .recursive (Tree.mem_subtrees_self _) hns.1 hdecl
    · exact ihs hns.2 ih.2 (absorb_named hsofar hraw habs) h

/-- **Inference stops at the problems that are blamed on nodes, and at no others.** -/
theorem Tree.result_blamed (n : Tree Span) :
    ∀ {st st' problem}, n.result st = (.error problem, st') → Blamed n problem := by
  induction n using Tree.induction with
  | int l value =>
    intro st st' problem h
    rw [result_int] at h
    cases h
  | var l name =>
    intro st st' problem h
    rw [result_var] at h
    cases h
  | array l elems _ =>
    intro st st' problem h
    rw [result_array] at h
    cases h
    exact .array (mem_subtrees_self _)
  | assign l name value _ =>
    intro st st' problem h
    rw [result_assign] at h
    cases h
    exact .assign (mem_subtrees_self _)
  | tuple l elems ih =>
    intro st st' problem h
    rw [result_tuple] at h
    rcases Infer.bind_error h with h | ⟨Ts, st₁, -, h⟩
    · exact results_blamed (fun n hn _ _ h => (ih n hn h).of_child hn) h
    · cases h
  | apply l fn arg ihf iha =>
    intro st st' problem h
    rw [result_apply] at h
    rcases Infer.bind_error h with h | ⟨fnRaw, st₁, -, h⟩
    · exact (ihf h).of_child (by simp [children])
    rw [Infer.lift_bind_apply] at h
    rcases Infer.bind_error h with h | ⟨argRaw, st₂, -, h⟩
    · exact (iha h).of_child (by simp [children])
    -- the application itself never stops inference
    rw [Infer.lift_bind_apply, Infer.lift_apply] at h
    cases h
  | fn l params body ih =>
    intro st st' problem h
    rw [result_fn] at h
    rcases Infer.bind_error h with h | ⟨raw, st₁, -, h⟩
    · exact (ih h).of_child (by simp [children])
    rw [Infer.lift_bind_apply] at h
    obtain ⟨param, hparam, hclash, hspan⟩ := fnTyping_clashes h
    obtain ⟨cause, span⟩ := problem
    subst hspan
    exact .parameter (mem_subtrees_self _) hparam hclash
  | decl l name value ih =>
    intro st st' problem h
    rw [result_decl] at h
    rcases Infer.bind_error h with h | ⟨raw, st₁, -, h⟩
    · exact (ih h).of_child (by simp [children])
    · cases h
  | ret l value ih =>
    intro st st' problem h
    rw [result_ret] at h
    exact (ih h).of_child (by simp [children])
  | block l stmts ih =>
    intro st st' problem h
    rw [result_block] at h
    have hstart : (block l stmts).Names (.closed .unit) :=
      Typing.named_of_nil rfl (by simp [Typing.closed, Table.keys])
    exact blockResult_blamed (fun n hn => hn) (fun n hn _ _ h => ih n hn h) hstart h

/-! ### Nodes without types -/

/-- Whether the root is an array literal or an assignment, which have no types. -/
def Tree.isUntyped {α : Type} : Tree α → Bool
  | .array _ _ | .assign _ _ _ => true
  | _ => false

/-- Nodes that have typings: none of them and none below is an array literal or an assignment. -/
def Tree.Typed (n : Tree Span) : Prop := ∀ m ∈ n.subtrees, m.isUntyped = false

theorem Tree.typed_iff {n : Tree Span} :
    n.Typed ↔ n.isUntyped = false ∧ ∀ c ∈ n.children, c.Typed := forall_subtrees_iff

theorem results_typed {ns : List (Tree Span)} (ih : ∀ n ∈ ns, ∀ {st T st'},
      n.result st = (.ok T, st') → n.Typed) :
    ∀ {st Ts st'}, results ns st = (.ok Ts, st') → ∀ n ∈ ns, n.Typed := by
  induction ns with
  | nil => simp
  | cons n ns ihs =>
    intro st Ts st' h
    rw [List.forall_mem_cons] at ih
    rw [results_cons] at h
    obtain ⟨T, st₁, hn, h⟩ := Infer.bind_ok h
    obtain ⟨Ts', st₂, hns, -⟩ := Infer.bind_ok h
    exact List.forall_mem_cons.mpr ⟨ih.1 hn, ihs ih.2 hns⟩

theorem blockResult_typed {ns : List (Tree Span)} (ih : ∀ n ∈ ns, ∀ {st T st'},
      n.result st = (.ok T, st') → n.Typed) :
    ∀ {sofar st T st'}, blockResult sofar ns st = (.ok T, st') → ∀ n ∈ ns, n.Typed := by
  induction ns with
  | nil => simp
  | cons n ns ihs =>
    intro sofar st T st' h
    rw [List.forall_mem_cons] at ih
    rw [blockResult_cons, Infer.lift_bind_apply] at h
    obtain ⟨raw, st₁, hn, h⟩ := Infer.bind_ok h
    obtain ⟨sofar', st₂, -, h⟩ := Infer.bind_ok h
    exact List.forall_mem_cons.mpr ⟨ih.1 hn, ihs ih.2 h⟩

/-- **A tree with a typing has no array literals and no assignments**, since every node is inferred
on the way. -/
theorem Tree.result_typed (n : Tree Span) :
    ∀ {st T st'}, n.result st = (.ok T, st') → n.Typed := by
  induction n using Tree.induction with
  | int l value | var l name => exact fun _ => typed_iff.mpr ⟨rfl, by simp [children]⟩
  -- nodes without typings end inference
  | array l elems _ =>
    intro st T st' h
    rw [result_array] at h
    cases h
  | assign l name value _ =>
    intro st T st' h
    rw [result_assign] at h
    cases h
  | tuple l elems ih =>
    intro st T st' h
    rw [result_tuple] at h
    obtain ⟨Ts, st₁, h, -⟩ := Infer.bind_ok h
    exact typed_iff.mpr ⟨rfl, results_typed ih h⟩
  | apply l fn arg ihf iha =>
    intro st T st' h
    rw [result_apply] at h
    -- a typing of the application needs one of the function and one of the argument
    obtain ⟨fnRaw, st₁, hfn, h⟩ := Infer.bind_ok h
    rw [Infer.lift_bind_apply] at h
    obtain ⟨argRaw, st₂, harg, -⟩ := Infer.bind_ok h
    exact typed_iff.mpr ⟨rfl, by simpa [children] using ⟨ihf hfn, iha harg⟩⟩
  | fn l params body ih =>
    intro st T st' h
    rw [result_fn] at h
    obtain ⟨raw, st₁, hbody, -⟩ := Infer.bind_ok h
    exact typed_iff.mpr ⟨rfl, by simpa [children] using ih hbody⟩
  | decl l name value ih =>
    intro st T st' h
    rw [result_decl] at h
    obtain ⟨raw, st₁, hvalue, -⟩ := Infer.bind_ok h
    exact typed_iff.mpr ⟨rfl, by simpa [children] using ih hvalue⟩
  | ret l value ih =>
    intro st T st' h
    rw [result_ret] at h
    exact typed_iff.mpr ⟨rfl, by simpa [children] using ih h⟩
  | block l stmts ih =>
    intro st T st' h
    rw [result_block] at h
    exact typed_iff.mpr ⟨rfl, blockResult_typed ih h⟩

/-! ### Checks -/

/-- The names of the prelude. -/
def builtinNames : List String := ["add", "sub", "mul", "neg", "unit", "fst", "snd", "swap"]

/-- The builtin names are those of the prelude, if there is one, and use no names. -/
theorem builtins_closed (withPrelude : Bool) (st : State) :
    (∀ e ∈ (builtins withPrelude st).1, e.2.context = []) ∧
      ∀ name ∈ Table.keys (builtins withPrelude st).1,
        withPrelude = true ∧ name ∈ builtinNames := by
  cases withPrelude with
  | false => exact ⟨fun e he => absurd he List.not_mem_nil, fun x hx => absurd hx List.not_mem_nil⟩
  | true =>
    refine ⟨?_, fun x hx => ⟨rfl, hx⟩⟩
    change ∀ e ∈ ([_, _, _, _, _, _, _, _] : Defined), _
    simp only [List.forall_mem_cons]
    exact ⟨rfl, rfl, rfl, rfl, rfl, rfl, rfl, rfl, fun e he => absurd he List.not_mem_nil⟩

/-- The problem is a use of a builtin name that does not go with its type, at the whole program. -/
def BlamedOnBuiltin (withPrelude : Bool) (tree : Tree Span) (problem : Problem) : Prop :=
  withPrelude = true ∧ ∃ name ∈ builtinNames,
    problem.val.Clashes ("use of '" ++ name ++ "'") ∧ problem.span = tree.label

theorem resolve_builtins_stops {withPrelude : Bool} {made st₁ st st' : State} {scope : Defined}
    {span : Span} {context : Context} {problem : Problem}
    (hscope : builtins withPrelude made = (scope, st₁))
    (h : resolve [] scope span context st = (.error problem, st')) :
    withPrelude = true ∧ ∃ name ∈ builtinNames,
      problem.val.Clashes ("use of '" ++ name ++ "'") ∧ problem.span = span := by
  obtain ⟨hclosed, hnames⟩ := builtins_closed withPrelude made
  rw [hscope] at hclosed hnames
  have hrun := resolutionRun scope span scope.length [] context [] st
  rw [resolve_eq] at h
  rcases hres : resolveNames scope span scope.length [] context [] st with ⟨⟨_ | _, out⟩, st₂⟩ <;>
    rw [hres] at h hrun <;> cases h
  obtain ⟨name, hname, hclash⟩ := hrun.stops_closed hclosed rfl (le_refl _) rfl
  exact ⟨(hnames name hname).1, name, (hnames name hname).2, hclash⟩

/-- What stops the check of a tree. -/
theorem checkTree_stops {withPrelude : Bool} {tree : Tree Span} {problem : Problem} {st' : State}
    (h : checkTree withPrelude tree {} = (.error problem, st')) :
    Blamed tree problem ∨ BlamedOnBuiltin withPrelude tree problem := by
  have hspan := infer_span tree {}
  rw [checkTree, Infer.bind_apply, Infer.lift_apply] at h
  rcases hinfer : infer tree.unmarked {} with ⟨⟨_ | T, root⟩, st⟩ <;> rw [hinfer] at h hspan
  · cases h
    -- a problem before the end of inference is blamed on a node of the tree
    exact Or.inl (tree.result_blamed (Tree.result_of_infer hinfer))
  · simp only [checkInferred_eq] at h
    rcases hscope : builtins withPrelude (st.logged (.inferred st.count T.context.length)) with
      ⟨scope, st₁⟩
    rw [hscope] at h
    simp only at h
    -- and after it, only the builtin names can stop the check
    rcases hresolve : resolve [] scope root.label.span T.context st₁ with ⟨_ | unresolved, st₂⟩ <;>
      rw [hresolve] at h <;> cases h
    obtain ⟨hprelude, name, hname, hclash, hroot⟩ := resolve_builtins_stops hscope hresolve
    exact Or.inr ⟨hprelude, name, hname, hclash, hroot.trans hspan⟩

theorem check_stops [Alphabet] {withPrelude : Bool} {source : String} {e : Problem}
    {events : List Event} (h : check withPrelude source = (.error (.type e), events)) :
    ∃ tree st', parse source = .ok tree ∧ checkTree withPrelude tree {} = (.error e, st') := by
  rw [check] at h
  rcases hparse : parse source with fault | tree <;> rw [hparse] at h
  · -- a source that cannot be read has another kind of fault
    rw [parse] at hparse
    split at hparse
    · cases hparse
      cases h
    · split at hparse <;> cases hparse
      cases h
  · simp only [ExceptT.run, StateT.run] at h
    rcases hcheck : checkTree withPrelude tree {} with ⟨_ | c, st'⟩ <;> rw [hcheck] at h <;> cases h
    exact ⟨tree, st', rfl, hcheck⟩

theorem TypeCause.Clashes.soft {description : String} {cause : TypeCause}
    (h : cause.Clashes description) :
    (∀ function argument, cause ≠ .application function argument) ∧
      ∀ name, cause ≠ .unbound name := by
  cases h <;> simp

theorem Blamed.soft {tree : Tree Span} {problem : Problem} (h : Blamed tree problem) :
    (∀ function argument, problem.val ≠ .application function argument) ∧
      ∀ name, problem.val ≠ .unbound name := by
  cases h with
  | array | assign | recursive => simp
  | parameter _ _ hclash => exact hclash.soft
  | use _ _ _ hclash => exact hclash.soft

/-- **What stops a check.**  A problem that does is blamed on an array literal, an assignment, the
parameter of a function, or a declared name at a statement of a block, or on a builtin name at the
whole program.  It is never a failed application or an unbound name.  And a check stops at every
array literal and assignment. -/
theorem check_fatal [Alphabet] (withPrelude : Bool) (source : String) :
    (∀ e events, check withPrelude source = (.error (.type e), events) →
      ∃ tree, parse source = .ok tree ∧
        (Blamed tree e ∨ BlamedOnBuiltin withPrelude tree e) ∧
        (∀ function argument, e.val ≠ .application function argument) ∧
        ∀ name, e.val ≠ .unbound name) ∧
    ∀ tree, parse source = .ok tree → (∃ n ∈ tree.subtrees, n.isUntyped = true) →
      ∀ c events, check withPrelude source ≠ (.ok c, events) := by
  constructor
  · intro e events h
    obtain ⟨tree, st', hparse, hcheck⟩ := check_stops h
    have hblamed := checkTree_stops hcheck
    refine ⟨tree, hparse, hblamed, ?_⟩
    rcases hblamed with hblamed | ⟨-, name, -, hclash, -⟩
    · exact hblamed.soft
    · exact hclash.soft
  · rintro tree hparse ⟨n, hn, huntyped⟩ c events h
    obtain ⟨tree', T, root, st, st', hparse', hinfer, -⟩ := check_run h
    obtain rfl := Except.ok.inj (hparse.symm.trans hparse')
    -- a check that ends has inferred the whole tree, and no node of it is untyped
    have htyped := tree.result_typed (Tree.result_of_infer hinfer) n hn
    rw [huntyped] at htyped
    cases htyped

/-- A function that applies its parameter to itself. -/
theorem check_fatal_selfApplication :
    ∃ e events tree, check true "fn(x) x(x)" = (.error (.type e), events) ∧
      parse "fn(x) x(x)" = .ok tree ∧ (Blamed tree e ∨ BlamedOnBuiltin true tree e) := by
  let tree : Tree Span := .block ⟨0, 10⟩ [.fn ⟨0, 10⟩ ["x"] (.apply ⟨6, 10⟩ (.var ⟨6, 7⟩ "x")
    (.tuple ⟨7, 10⟩ [.var ⟨8, 9⟩ "x"]))]
  have hparse : parse "fn(x) x(x)" = .ok tree := by cbv
  have hstops : (checkTree true tree {}).1.toOption.isNone = true := by decide +kernel
  clear_value tree
  rcases hres : checkTree true tree {} with ⟨e | c, st⟩ <;> rw [hres] at hstops
  · have hcheck : check true "fn(x) x(x)" = (.error (.type e), st.log.reverse) := by
      rw [check, hparse]
      simp only [ExceptT.run, StateT.run]
      rw [hres]
      rfl
    obtain ⟨tree', hparse', hblamed, -⟩ := (check_fatal true "fn(x) x(x)").1 e _ hcheck
    exact ⟨e, _, tree', hcheck, hparse', hblamed⟩
  · cases hstops

end LetTyping
