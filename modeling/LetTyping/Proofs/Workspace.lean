import LetTyping.Prelude
import LetTyping.Proofs.Separation
import LetTyping.Proofs.Signature

/-!
# Reachable states

A workspace is a state together with everything that has been found in it: trees with the typings
that are known at their nodes, and the typings that were returned.  Its actions are all the ways to
use a state, on any types, typings and trees over variables that are allocated.  They may fail, and
what they did up to then stays.

Whatever is done, no variable ever reaches itself through bindings, and no variable turns up before
it is allocated.  So bindings can be followed from every type, to an end that has no bound
variables.

## Main definitions

* `Workspace`, `Action`, `Workspace.perform` — a state with what was found in it, and its uses.
* `Action.Fits` — the arguments of an action are over allocated variables.
* `Workspace.Reachable` — workspaces that come from the empty one by actions.
* `Workspace.Acts` — workspaces that come from another one by an action.
* `Workspace.Sound` — the invariant.

## Main results

* `Workspace.Sound.perform` — every action keeps the invariant, and frees no variable.
* `Workspace.Reachable.count_lt` — **a bound that the count keeps at the end of a run is kept all
  along.**
* `Workspace.Reachable.wellFormed` — **reachable states are acyclic and scoped.**
-/

namespace LetTyping

/-! ### Workspaces -/

/-- A state with the trees whose nodes are inferred in it and the typings that were returned. -/
structure Workspace where
  state : State := {}
  trees : List (Tree Mark) := []
  results : List Typing := []

/-- The uses of a state. -/
inductive Action where
  /-- Allocate a variable. -/
  | fresh (tag : Option String)
  /-- Make two types equal, if possible. -/
  | unify (a b : Ty)
  /-- Copy a typing. -/
  | instantiate (T : Typing)
  /-- Take in a tree. -/
  | load (t : Tree Mark)
  /-- Infer the node at the end of a path in one of the trees. -/
  | infer (tree : Nat) (path : List Nat)
  /-- Make the builtin names. -/
  | prelude
  /-- Resolve a context, and add the uses of undeclared names to `out`. -/
  | resolve (out : Context) (defined : Defined) (span : Span) (context : Context)
  /-- Report the signatures of the node at the end of a path in one of the trees. -/
  | signatures (outer : Defined) (tree : Nat) (path : List Nat)

/-- The arguments of the action are over allocated variables. -/
def Action.Fits (st : State) : Action → Prop
  | fresh _ | prelude | infer _ _ => True
  | unify a b => st.Allocated a ∧ st.Allocated b
  | instantiate T => T.All st.Allocated
  | load t => t.Marked fun _ T => T.All st.Allocated
  | resolve out defined _ context => Uses.All st.Allocated out ∧
      (∀ e ∈ defined, e.2.All st.Allocated) ∧ Uses.All st.Allocated context
  | signatures outer _ _ => ∀ e ∈ outer, e.2.All st.Allocated

/-- A node of a tree with typings over a region has typings over it. -/
theorem Tree.Owned.get? {M : Nat → Prop} {st : State} {t node : Tree Mark} {path : List Nat}
    (h : t.Owned M st) (hpath : t.get? path = some node) : node.Owned M st := by
  induction hpath using Tree.pathInduction with
  | here => exact h
  | below t i c path hi _ ih => exact ih (h.children c (List.mem_of_getElem? hi))

/-- A property of the types of the builtin names, from the variables and the constructors that these
are made of. -/
theorem prelude_all {P : Ty → Prop} {st : State} (hint : P .int) (hunit : P .unit)
    (hvar : ∀ i < 6, P (.var ⟨st.count + i, none⟩))
    (hproduct : ∀ ts, (∀ t ∈ ts, P t) → P (.product ts))
    (harrow : ∀ ts r, (∀ t ∈ ts, P t) → P r → P (.arrow (.product ts) r)) :
    ∀ e ∈ (prelude st).1, e.2.All P := by
  have hints : ∀ k : Nat, (Typing.closed (.arrow (.product (List.replicate k .int)) .int)).All P :=
    fun k => Typing.all_closed.mpr
      (harrow _ _ (fun t ht => List.eq_of_mem_replicate ht ▸ hint) hint)
  have hpair : ∀ {a b c : Ty}, P a → P b → P c → (Typing.closed (pairFn a b c)).All P := by
    intro a b c ha hb hc
    refine Typing.all_closed.mpr (harrow _ _ (List.forall_mem_singleton.mpr (hproduct _ ?_)) hc)
    simpa using ⟨ha, hb⟩
  change ∀ e ∈ ([_, _, _, _, _, _, _, _] : Defined), _
  simp only [List.forall_mem_cons]
  refine ⟨hints 2, hints 2, hints 2, hints 1, Typing.all_closed.mpr hunit, ?_, ?_, ?_, by simp⟩
  · exact hpair (hvar 0 (by omega)) (hvar 1 (by omega)) (hvar 0 (by omega))
  · exact hpair (hvar 2 (by omega)) (hvar 3 (by omega)) (hvar 3 (by omega))
  · refine hpair (hvar 4 (by omega)) (hvar 5 (by omega)) (hproduct _ ?_)
    simpa using ⟨hvar 5 (by omega), hvar 4 (by omega)⟩

/-- The builtin names are over fresh variables, and making them binds nothing. -/
theorem prelude_evolves {K : Nat → Prop} {st : State} (h : Region K st) :
    Evolves K st (prelude st).2 ∧ ∀ e ∈ (prelude st).1, e.2.All (Owns K (prelude st).2) := by
  have hev : ∀ n, Evolves K st { st with count := st.count + n } := by
    intro n
    induction n with
    | zero => exact h.evolves_refl
    | succ n ih => exact ih.trans (State.next_evolves ih.region)
  have hvar : ∀ i < 6, Owns K (prelude st).2 (.var ⟨st.count + i, none⟩) := by
    intro i hi m hm
    rw [Ty.ids_var, List.mem_singleton] at hm
    rw [hm]
    exact ⟨h.fresh _ (Nat.le_add_right _ _), Nat.add_lt_add_left hi _⟩
  exact ⟨hev 6, prelude_all (.con (by simp)) (.con (by simp)) hvar (fun _ => .product)
    fun _ _ hts hr => .arrow (.product hts) hr⟩

namespace Workspace

/-- The workspace with one more returned typing, in another state. -/
def returning (w : Workspace) (T : Typing) (st : State) : Workspace :=
  ⟨st, w.trees, T :: w.results⟩

/-- Infers a node of the tree `i`.  The node keeps its typing, also where the whole fails. -/
def inferNode (w : Workspace) (i : Nat) (t : Tree Mark) (path : List Nat) (node : Tree Mark) :
    Workspace :=
  let ((result, node'), st) := LetTyping.infer node w.state
  ⟨st, w.trees.set i (t.set node' path), result.toOption.toList ++ w.results⟩

/-- The node at the end of a path in the tree `i`. -/
def node? (w : Workspace) (i : Nat) (path : List Nat) : Option (Tree Mark × Tree Mark) := do
  let t ← w.trees[i]?
  let node ← t.get? path
  return (t, node)

/-- Performs an action.  A context that is returned is kept with the unit type. -/
def perform (w : Workspace) : Action → Workspace
  | .fresh tag => w.returning (.closed (freshTagged tag w.state).1) (freshTagged tag w.state).2
  | .unify a b => { w with state := (unifyTypes a b w.state).2 }
  | .instantiate T => w.returning (instantiate T w.state).1 (instantiate T w.state).2
  | .load t => { w with trees := w.trees ++ [t] }
  | .infer i path =>
    match w.node? i path with
    | none => w
    | some (t, node) => w.inferNode i t path node
  | .prelude => ⟨(LetTyping.prelude w.state).2, w.trees,
      (LetTyping.prelude w.state).1.map Prod.snd ++ w.results⟩
  | .resolve out defined span context =>
    let ((_, out), st) := resolveInto out defined span context w.state
    w.returning ⟨.unit, out, []⟩ st
  | .signatures outer i path =>
    match w.node? i path with
    | none => w
    | some (_, node) => { w with state := (LetTyping.signatures [outer] node w.state).2 }

/-- Workspaces that come from the empty one by actions on allocated variables. -/
inductive Reachable : Workspace → Prop
  | start : Reachable {}
  | step {w : Workspace} {a : Action} : Reachable w → a.Fits w.state → Reachable (w.perform a)

/-- An action on allocated variables leads from `w` to `w'`. -/
def Acts (w w' : Workspace) : Prop := ∃ a : Action, a.Fits w.state ∧ w.perform a = w'

/-! ### The invariant -/

/-- The bindings are acyclic and about allocated variables, and all typings are over allocated
variables. -/
structure Sound (w : Workspace) : Prop where
  region : Region Anywhere w.state
  trees : ∀ t ∈ w.trees, t.Owned Anywhere w.state
  results : ∀ T ∈ w.results, T.All (Owns Anywhere w.state)

variable {w : Workspace}

theorem sound_start : Sound {} where
  region := region_start
  trees := by simp
  results := by simp

namespace Sound

/-- Known and returned typings stay over allocated variables. -/
theorem evolve {K : Nat → Prop} {st : State} (h : w.Sound) (hev : Evolves K w.state st) :
    Sound { w with state := st } where
  region := hev.region.all
  trees := fun t ht => (h.trees t ht).mono hev.count_le
  results := fun T hT => (h.results T hT).imp fun _ ht => ht.mono hev.count_le

/-- One more typing is returned. -/
theorem returning {K : Nat → Prop} {st : State} {T : Typing} (h : w.Sound)
    (hev : Evolves K w.state st) (hT : T.All (Owns Anywhere st)) : (w.returning T st).Sound :=
  ⟨(h.evolve hev).region, (h.evolve hev).trees,
    List.forall_mem_cons.mpr ⟨hT, (h.evolve hev).results⟩⟩

theorem node_owned (h : w.Sound) {i : Nat} {path : List Nat} {t node : Tree Mark}
    (hnode : w.node? i path = some (t, node)) :
    w.trees[i]? = some t ∧ t.get? path = some node ∧ node.Owned Anywhere w.state := by
  simp only [node?, Option.bind_eq_bind, Option.bind_eq_some_iff, Option.pure_def,
    Option.some.injEq, Prod.mk.injEq] at hnode
  obtain ⟨t', ht', node', hnode', rfl, rfl⟩ := hnode
  exact ⟨ht', hnode', (h.trees t' (List.mem_of_getElem? ht')).get? hnode'⟩

/-- Inferring a node adds typings over allocated variables to its tree. -/
theorem inferNode (h : w.Sound) {i : Nat} {path : List Nat} {t node : Tree Mark}
    (hnode : w.node? i path = some (t, node)) :
    (w.inferNode i t path node).Sound ∧
      w.state.count ≤ (w.inferNode i t path node).state.count := by
  obtain ⟨ht, hpath, hown⟩ := h.node_owned hnode
  have hgrow := (infer_grows h.region hown).set hpath
  have hev := h.evolve hgrow.evolves
  refine ⟨⟨hev.region, fun u hu => ?_, fun T hT => ?_⟩, hgrow.evolves.count_le⟩
  · rcases List.mem_or_eq_of_mem_set hu with hu | rfl
    · exact hev.trees u hu
    · exact hgrow.owned Anywhere h.region (h.trees t (List.mem_of_getElem? ht))
  · rcases List.mem_append.mp hT with hT | hT
    · refine infer_owns h.region hown T ?_
      cases hres : (infer node w.state).1.1 with
      | error problem => simp [hres, Except.toOption] at hT
      | ok T' => simpa [hres, Except.toOption, eq_comm] using hT
    · exact hev.results T hT

/-- **Every action keeps the invariant, and frees no variable.** -/
theorem perform (h : w.Sound) {a : Action} (ha : a.Fits w.state) :
    (w.perform a).Sound ∧ w.state.count ≤ (w.perform a).state.count := by
  cases a with
  | fresh tag =>
    have hev := State.next_evolves h.region
    exact ⟨h.returning hev (Typing.all_closed.mpr (h.region.owns_var tag)), hev.count_le⟩
  | unify a b =>
    have hev := State.unified_evolves h.region ha.1.owns ha.2.owns
    exact ⟨h.evolve hev, hev.count_le⟩
  | instantiate T =>
    obtain ⟨hev, hcopy, -, -⟩ := instantiate_evolves h.region (ha.imp fun _ ht => ht.owns)
    exact ⟨h.returning hev hcopy, hev.count_le⟩
  | load t =>
    refine ⟨⟨h.region, fun u hu => ?_, h.results⟩, le_rfl⟩
    rcases List.mem_append.mp hu with hu | hu
    · exact h.trees u hu
    · rw [List.mem_singleton] at hu
      exact hu ▸ ha.imp fun _ _ hT => hT.imp fun _ ht => ht.owns
  | infer i path =>
    rw [Workspace.perform]
    cases hnode : w.node? i path with
    | none => exact ⟨h, le_rfl⟩
    | some found => exact h.inferNode hnode
  | prelude =>
    obtain ⟨hev, hall⟩ := prelude_evolves h.region
    refine ⟨⟨(h.evolve hev).region, (h.evolve hev).trees, fun T hT => ?_⟩, hev.count_le⟩
    rcases List.mem_append.mp hT with hT | hT
    · obtain ⟨e, he, rfl⟩ := List.mem_map.mp hT
      exact hall e he
    · exact (h.evolve hev).results T hT
  | resolve out defined span context =>
    obtain ⟨hout, hdef, hcontext⟩ := ha
    obtain ⟨hev, hres⟩ := resolveInto_evolves h.region
      (fun e he => (hdef e he).imp fun _ ht => ht.owns)
      (fun e he t ht => (hcontext e he t ht).owns) out span
    -- what has passed out is kept also if the resolution fails
    refine ⟨h.returning hev (Typing.all_iff.mpr ⟨.con (by simp), ?_, fun _ he => nomatch he⟩),
      hev.count_le⟩
    exact hres Anywhere (fun _ hn => hn) fun e he t ht => (hout e he t ht).owns
  | signatures outer i path =>
    rw [Workspace.perform]
    cases hnode : w.node? i path with
    | none => exact ⟨h, le_rfl⟩
    | some found =>
      obtain ⟨-, -, hown⟩ := h.node_owned hnode
      have hscopes : ∀ scope ∈ [outer], ∀ e ∈ scope, e.2.All (Owns Anywhere w.state) := by
        intro scope hscope
        rw [List.mem_singleton.mp hscope]
        exact fun e he => (ha e he).imp fun _ ht => ht.owns
      have hev := signatures_evolves found.2 h.region hscopes hown
      exact ⟨h.evolve hev, hev.count_le⟩

end Sound

theorem Reachable.sound (h : w.Reachable) : w.Sound := by
  induction h with
  | start => exact sound_start
  | step _ ha ih => exact (ih.perform ha).1

/-- **A bound that the count keeps at the end of a run is kept all along**, since the count only
grows. -/
theorem Reachable.count_lt {w' : Workspace} {bound : Nat} (h : w.Reachable)
    (hrun : Relation.ReflTransGen Acts w w') (hend : w'.state.count < bound) :
    w.state.count < bound := by
  induction hrun using Relation.ReflTransGen.head_induction_on with
  | refl => exact hend
  | head hact _ ih =>
    obtain ⟨a, ha, rfl⟩ := hact
    exact lt_of_le_of_lt (h.sound.perform ha).2 (ih (h.step ha))

/-- **Reachable states are acyclic and scoped.**  No variable reaches itself through bindings; the
variables of the bindings, of the known typings and of the returned ones are allocated; and from
every type bindings lead to exactly one type, which has no bound variable and is resolved to
itself. -/
theorem Reachable.wellFormed (h : w.Reachable) :
    w.state.subst.Acyclic ∧
      (∀ n t, w.state.subst[n]? = some t → n < w.state.count ∧ w.state.Allocated t) ∧
      (∀ t ∈ w.trees, ∀ node ∈ t.subtrees, ∀ T, node.label.typing = some T →
        T.All w.state.Allocated) ∧
      (∀ T ∈ w.results, T.All w.state.Allocated) ∧
      ∀ t, (∀ u, w.state.subst.LeadsTo t u ↔ u = w.state.subst.apply t) ∧
        w.state.subst.apply (w.state.subst.apply t) = w.state.subst.apply t ∧
        ∀ n ∈ (w.state.subst.apply t).ids, w.state.subst[n]? = none := by
  obtain ⟨hregion, htrees, hresults⟩ := h.sound
  have hs := hregion.acyclic
  refine ⟨hs, hregion.allocated, fun t ht node hnode T hT => ?_, fun T hT => ?_, fun t => ?_⟩
  · exact (htrees t ht node hnode T hT).imp fun _ ht => ht.allocated
  · exact (hresults T hT).imp fun _ ht => ht.allocated
  · exact ⟨fun u => hs.leadsTo_iff, hs.apply_apply t, fun n hn => hs.unbound_of_mem_ids_apply hn⟩

/-- A block is inferred, and then a variable of it cannot be made equal to a function from
itself. -/
theorem Reachable.wellFormed_infinite :
    let program : Tree Span := .block ⟨0, 0⟩
      [.decl ⟨0, 0⟩ "id" (.fn ⟨0, 0⟩ ["x"] (.var ⟨0, 0⟩ "x")),
        .apply ⟨0, 0⟩ (.var ⟨0, 0⟩ "id") (.tuple ⟨0, 0⟩ [.int ⟨0, 0⟩ 1])]
    let loaded := (({} : Workspace).perform (.load program.unmarked)).perform (.infer 0 [])
    let w := loaded.perform (.unify (.var ⟨0, none⟩) (.arrow (.var ⟨0, none⟩) .int))
    w.Reachable ∧ w.state.count = 9 ∧ w.state.subst.Acyclic ∧
      (∀ n t, w.state.subst[n]? = some t → n < 9 ∧ w.state.Allocated t) ∧
      ∀ t, ∀ n ∈ (w.state.subst.apply t).ids, w.state.subst[n]? = none := by
  intro program loaded w
  have hloaded : loaded.Reachable :=
    .step (.step .start (Tree.marked_unmarked program)) trivial
  have hfits : loaded.state.Allocated (.var ⟨0, none⟩) ∧
      loaded.state.Allocated (.arrow (.var ⟨0, none⟩) .int) := by
    unfold State.Allocated
    decide +kernel
  have hw : w.Reachable := .step hloaded hfits
  have hcount : w.state.count = 9 := by decide +kernel
  obtain ⟨hs, halloc, -, -, happly⟩ := hw.wellFormed
  exact ⟨hw, hcount, hs, fun n t h => hcount ▸ halloc n t h, fun t => (happly t).2.2⟩

end Workspace

end LetTyping
