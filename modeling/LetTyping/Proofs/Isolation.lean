import Mathlib
import LetTyping.Proofs.Agreement

/-!
# Statements that can be left out

A statement of a block hands three things on: the names it uses, the names it declares, and, if it
is the last one, its type.  A statement whose typing has no uses and no declarations hands nothing
on unless it comes last, so the block does the same without it.  This is so for every application
that failed: the mark of its failure has no uses, whatever names occur in the function and the
argument and whatever was unified before the failure showed.

The variables that the statement allocates and binds are its own.  The rest of the block goes on in
a state that has more variables, but none of them is in reach, so that it runs in lockstep with the
rest of the block that has no such statement.

## Main definitions

* `Typing.Silent` — a typing has no uses and no declarations.
* `Tree.Silent` — a statement has such a typing wherever it stands.

## Main results

* `absorb_silent` — taking in a silent statement changes the type of the block so far and no more.
* `Tree.silent_of_failure` — a failed application is silent.
* `blockResult_drop` — a silent statement may be left out, whatever comes before it.
* `infer_drop_statement` — **a block does the same without a silent statement that is not its
  last.**
-/

namespace LetTyping

variable {st st' st₁ st₂ : State} {sofar T T' : Typing} {n s : Tree Span} {ns : List (Tree Span)}

/-! ### Typings without names -/

/-- The typing has no uses and no declarations. -/
def Typing.Silent (T : Typing) : Prop := T.context = [] ∧ T.defined = []

theorem Typing.silent_mapTypes {g : Ty → Ty} : (T.mapTypes g).Silent ↔ T.Silent := by
  rw [Silent, Silent, mapTypes_context, mapTypes_defined, Uses.map, Table.mapValues,
    Table.mapValues, List.map_eq_nil_iff, List.map_eq_nil_iff]

/-- Renaming and resolving add no names. -/
theorem ResolvedAlike.silent (h : ResolvedAlike T st T' st') (hT : T.Silent) : T'.Silent := by
  obtain ⟨f, -, hf⟩ := h
  rw [← Typing.silent_mapTypes (g := st'.subst.apply), ← Typing.apply, hf, Typing.rename,
    Typing.silent_mapTypes, Typing.apply, Typing.silent_mapTypes]
  exact hT

/-- Taking in a silent statement changes the type of the block so far and nothing else. -/
theorem absorb_silent (h : Region Anywhere st) (hT : T.All (Owns Anywhere st)) (hsilent : T.Silent)
    (sofar : Typing) (span : Span) :
    absorb sofar span T st =
      (.ok ⟨(instantiate T st).1.ty, sofar.context, sofar.defined⟩, (instantiate T st).2) := by
  obtain ⟨-, -, -, heq⟩ := instantiate_evolves h hT
  have hcopy : (instantiate T st).1.Silent := by
    rw [heq, Typing.renumber, Typing.silent_mapTypes, Typing.apply, Typing.silent_mapTypes]
    exact hsilent
  rw [absorb_collected, hcopy.1, hcopy.2, resolveNames_nil]
  rfl

/-! ### Silent statements -/

/-- The statement has a typing from every state, and the typing is silent. -/
def Tree.Silent (n : Tree Span) : Prop :=
  ∀ st, Region Anywhere st → ∃ T st₁, n.result st = (.ok T, st₁) ∧ T.Silent

/-- One state tells for all. -/
theorem Tree.silent_of_result (h : Region Anywhere st) (hres : n.result st = (.ok T, st₁))
    (hT : T.Silent) : n.Silent := by
  intro st' h'
  have hsame := n.result_same h h'
  rw [hres] at hsame
  generalize n.result st' = x at hsame ⊢
  cases hsame with
  | ok halike => exact ⟨_, _, rfl, halike.silent hT⟩

/-- **A failed application is silent**, whatever names occur in it. -/
theorem Tree.silent_of_failure (hkind : n.isApply = true) (hres : n.result st = (.ok T, st₁))
    (hT : T.ty.isFailure = true) : T.Silent := by
  obtain ⟨l, fn, arg, rfl⟩ : ∃ l fn arg, n = apply l fn arg := by
    cases n with
    | apply l fn arg => exact ⟨l, fn, arg, rfl⟩
    | _ => cases hkind
  rw [result_apply] at hres
  obtain ⟨F, st₂, -, hres⟩ := Infer.bind_ok hres
  rw [Infer.lift_bind_apply] at hres
  obtain ⟨A, st₃, -, hres⟩ := Infer.bind_ok hres
  rw [Infer.lift_bind_apply, Infer.lift_apply, applyTypings_eq] at hres
  cases hu : (unify (instantiate A st₃).2.subst _ _).1 with
  | ok _ =>
    -- an application that goes well has a variable as its type
    rw [hu] at hres
    cases hres
    cases hT
  | error cause =>
    rw [hu] at hres
    cases hres
    exact ⟨rfl, rfl⟩

/-! ### Blocks -/

/-- The type of a block so far plays no part when a statement follows. -/
theorem blockResult_ty (ty : Ty) (sofar : Typing) (hns : ns ≠ []) :
    blockResult ⟨ty, sofar.context, sofar.defined⟩ ns = blockResult sofar ns := by
  obtain ⟨n, ns, rfl⟩ := List.exists_cons_of_ne_nil hns
  rw [blockResult_cons, blockResult_cons]
  rfl

/-- A block goes on alike from any two states that add to a common one. -/
theorem blockResult_same (h : Region Anywhere st) (hsofar : sofar.All (Owns Anywhere st))
    (hev : Evolves (st.count ≤ ·) st st₁) (hev' : Evolves (st.count ≤ ·) st st₂)
    (ns : List (Tree Span)) :
    SameOutcome ResolvedAlike (blockResult sofar ns st₁) (blockResult sofar ns st₂) := by
  have hafresh : (ns.map Tree.unmarked).map Tree.afresh = ns.map Tree.unmarked := by
    rw [List.map_map]
    exact List.map_congr_left fun n _ => congrArg Tree.unmarked n.erase_unmarked
  have hs : Siblings Standard st₁ (ns.map Tree.unmarked) :=
    hafresh ▸ siblings_afresh hev.region.all (ns.map Tree.unmarked)
  have hstep := inferStatements_inStep (fun t _ => (infer_reproducible t).2) hs
    ((Lockstep.refl h).evolve hev hev') (Renamed.refl hsofar)
  rw [hafresh] at hstep
  exact hstep.same

/-- A block with a silent statement in front goes on without it, in a state with variables that were
allocated for the statement. -/
theorem Tree.Silent.run (hs : s.Silent) (h : Region Anywhere st) (sofar : Typing) (hns : ns ≠ []) :
    ∃ st₁, Evolves (st.count ≤ ·) st st₁ ∧
      blockResult sofar (s :: ns) st = blockResult sofar ns st₁ := by
  have h₀ := State.logged_evolves h.above (.statement s.kind s.label.start)
  obtain ⟨T, st₁, hres, hT⟩ := hs _ h₀.region.all
  obtain ⟨hev, hown⟩ := s.result_evolves h₀.region.all
  rw [hres] at hev hown
  have hT₁ : T.All (Owns Anywhere st₁) := (hown T rfl).1.imp fun _ ht => ht.anywhere
  have hev₁ := (instantiate_evolves hev.region.all.above hT₁).1
  refine ⟨_, (h₀.step hev).step hev₁, ?_⟩
  rw [blockResult_cons, Infer.lift_bind_apply, record_eq]
  refine (Infer.bind_of_ok hres _).trans
    ((Infer.bind_of_ok (absorb_silent hev.region.all hT₁ hT sofar s.label) _).trans ?_)
  rw [blockResult_ty _ _ hns]

/-- **A silent statement may be left out**, whatever statements come before it. -/
theorem blockResult_drop (hs : s.Silent) (before : List (Tree Span)) {after : List (Tree Span)}
    (hafter : after ≠ []) (h : Region Anywhere st) (hsofar : sofar.All (Owns Anywhere st)) :
    SameOutcome ResolvedAlike (blockResult sofar (before ++ s :: after) st)
      (blockResult sofar (before ++ after) st) := by
  induction before generalizing st sofar with
  | nil =>
    obtain ⟨st₁, hev, hrun⟩ := hs.run h sofar hafter
    rw [List.nil_append, List.nil_append, hrun]
    exact blockResult_same h hsofar hev h.above.evolves_refl after
  | cons n before ih =>
    -- both blocks do the same in the same state, up to the statement that is left out
    have h₀ := State.logged_evolves h.above (.statement n.kind n.label.start)
    obtain ⟨hev, hown⟩ := n.result_evolves h₀.region.all
    rw [List.cons_append, List.cons_append, blockResult_cons, blockResult_cons,
      Infer.lift_bind_apply, Infer.lift_bind_apply, record_eq, Infer.bind_apply, Infer.bind_apply]
    rcases hres : n.result (st.logged (.statement n.kind n.label.start)) with ⟨problem | T, st₁⟩
    · exact .error
    · rw [hres] at hev hown
      have hT : T.All (Owns Anywhere st₁) := (hown T rfl).1.imp fun _ ht => ht.anywhere
      have hsofar₁ : sofar.All (Owns Anywhere st₁) :=
        hsofar.imp fun _ ht => ht.mono (h₀.step hev).count_le
      obtain ⟨hev₁, hown₁⟩ := absorb_evolves hev.region.all hsofar₁ hT n.label
      simp only [Infer.bind_apply]
      rcases habs : absorb sofar n.label T st₁ with ⟨problem | sofar', st₂⟩
      · exact .error
      · rw [habs] at hev₁ hown₁
        exact ih hev₁.region.all (hown₁ Anywhere hev.region.all hsofar₁ sofar' rfl)

/-- **A block does the same without a statement that is not its last, if the typing of the statement
has no uses and no declarations.**  The block with the statement and the block without it end with
the same problem, or their resolved typings are equal up to a renaming of variables.  It makes no
difference in which state the statement has such a typing, and a failed application has one
always. -/
theorem infer_drop_statement (l l' : Span) (before after : List (Tree Span)) (hafter : after ≠ [])
    (h : Region Anywhere st) (hT : (infer s.unmarked st).1.1 = .ok T)
    (hsilent : (T.context = [] ∧ T.defined = []) ∨ (s.isApply = true ∧ T.ty.isFailure = true)) :
    SameOutcome ResolvedAlike (found (infer (Tree.block l (before ++ s :: after)).unmarked {}))
      (found (infer (Tree.block l' (before ++ after)).unmarked {})) := by
  have hres : s.result st = (.ok T, (infer s.unmarked st).2) := by rw [Tree.result, hT]
  have hT' : T.Silent := hsilent.elim id fun hfail => Tree.silent_of_failure hfail.1 hres hfail.2
  have hdrop := blockResult_drop (Tree.silent_of_result h hres hT') before hafter region_start
    (Owns.closed_unit (K := Anywhere))
  rwa [← Tree.result_block l, ← Tree.result_block l'] at hdrop

/-- In `let id = fn (x) x`, `(y, id)(z)`, `id(1)` the second statement is a failed application of a
tuple.  The block has the type that it has without this statement, and in a block that ends with the
use of a name declared in terms of itself the problem is the same. -/
theorem infer_drop_statement_failure :
    let use (name : String) : Tree Span := .var ⟨0, 0⟩ name
    let id : Tree Span := .decl ⟨1, 2⟩ "id" (.fn ⟨0, 0⟩ ["x"] (use "x"))
    let loop : Tree Span := .decl ⟨1, 2⟩ "loop" (use "loop")
    let failed : Tree Span := .apply ⟨3, 4⟩ (.tuple ⟨0, 0⟩ [use "y", use "id"]) (use "z")
    let call : Tree Span := .apply ⟨5, 6⟩ (use "id") (.tuple ⟨0, 0⟩ [.int ⟨0, 0⟩ 1])
    let outcome (ns : List (Tree Span)) := found (infer (Tree.block ⟨0, 6⟩ ns).unmarked {})
    (∃ T T', (outcome [id, failed, call]).1 = .ok T ∧ (outcome [id, call]).1 = .ok T' ∧
        ResolvedAlike T (outcome [id, failed, call]).2 T' (outcome [id, call]).2) ∧
      ∃ e, (outcome [loop, failed, use "loop"]).1 = .error e ∧
        (outcome [loop, use "loop"]).1 = .error e := by
  intro use id loop failed call outcome
  have hok : (outcome [id, failed, call]).1.isOk = true := by decide +kernel
  have herror : (outcome [loop, failed, use "loop"]).1.isOk = false := by decide +kernel
  have hfail : (infer failed.unmarked {}).1.1.toOption.any (·.ty.isFailure) = true := by
    decide +kernel
  obtain ⟨T, hT, hty⟩ : ∃ T, (infer failed.unmarked {}).1.1 = .ok T ∧ T.ty.isFailure = true := by
    cases hT : (infer failed.unmarked {}).1.1 with
    | error e =>
      rw [hT] at hfail
      cases hfail
    | ok T =>
      rw [hT] at hfail
      exact ⟨T, rfl, hfail⟩
  have hcall := infer_drop_statement ⟨0, 6⟩ ⟨0, 6⟩ [id] [call] (by simp) region_start hT
    (Or.inr ⟨rfl, hty⟩)
  have hloop := infer_drop_statement ⟨0, 6⟩ ⟨0, 6⟩ [loop] [use "loop"] (by simp) region_start hT
    (Or.inr ⟨rfl, hty⟩)
  change SameOutcome _ (outcome [id, failed, call]) (outcome [id, call]) at hcall
  change SameOutcome _ (outcome [loop, failed, use "loop"]) (outcome [loop, use "loop"]) at hloop
  clear_value outcome
  constructor
  · generalize outcome [id, failed, call] = x at hcall hok ⊢
    generalize outcome [id, call] = x' at hcall ⊢
    cases hcall with
    | ok halike => exact ⟨_, _, rfl, rfl, halike⟩
    | error => cases hok
  · generalize outcome [loop, failed, use "loop"] = x at hloop herror ⊢
    generalize outcome [loop, use "loop"] = x' at hloop ⊢
    cases hloop with
    | ok => cases herror
    | error => exact ⟨_, rfl, rfl⟩

end LetTyping
