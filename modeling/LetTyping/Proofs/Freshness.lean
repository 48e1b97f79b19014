import LetTyping.Proofs.Instance
import Mathlib.Data.Finset.Card

/-!
# Instances are fresh

An instance of a typing is made by a substitution that is applied like any other one, with bindings
followed to their end.  Still it is a simultaneous renaming: the variables of the resolved typing
are replaced once, by the next numbers in the order in which they come up, through the type, the
context and the declared typings.

## Main definitions

* `TVar.IsNth` — a variable is the one with a given place among some variables.

## Main results

* `TVar.IsNth.getElem?_distinct` — a variable is listed at its place, with its first tag.
* `instantiate_freshens` — **an instance is a simultaneous renaming by fresh variables.**
-/

namespace LetTyping

namespace TVar

variable {vs : List TVar}

/-! ### Places of variables -/

/-- The variable `v` has the place `i` among `vs`: its number comes up at `v` for the first time,
after `i` other numbers. -/
def IsNth (vs : List TVar) (i : Nat) (v : TVar) : Prop :=
  ∃ before after, vs = before ++ v :: after ∧ v.id ∉ before.map TVar.id ∧
    (before.map TVar.id).toFinset.card = i

/-- Every variable has a place. -/
theorem exists_isNth {w : TVar} (hw : w ∈ vs) : ∃ i v, IsNth vs i v ∧ v.id = w.id := by
  obtain ⟨ids, ids', hsplit, hnew⟩ := List.eq_append_cons_of_mem (List.mem_map_of_mem (f := id) hw)
  obtain ⟨before, rest, rfl, rfl, hrest⟩ := List.map_eq_append_iff.mp hsplit
  obtain ⟨v, after, rfl, hv, -⟩ := List.map_eq_cons_iff.mp hrest
  exact ⟨_, v, ⟨before, after, rfl, hv ▸ hnew, rfl⟩, hv⟩

/-- As many variables are listed as there are different numbers. -/
theorem length_distinct_eq_card (vs : List TVar) :
    (distinct vs).length = (vs.map TVar.id).toFinset.card := by
  have hset : (vs.map TVar.id).toFinset = ((distinct vs).map TVar.id).toFinset := by
    ext n
    rw [List.mem_toFinset, List.mem_toFinset, mem_distinct]
  rw [hset, List.toFinset_card_of_nodup (nodup_distinct vs), List.length_map]

/-- A variable is listed at its place, with the tag of its first occurrence. -/
theorem IsNth.getElem?_distinct {i : Nat} {v : TVar} (h : IsNth vs i v) :
    (distinct vs)[i]? = some v := by
  obtain ⟨before, after, rfl, hnew, rfl⟩ := h
  rw [distinct_append, ← length_distinct_eq_card, List.getElem?_append_right (Nat.le_refl _),
    Nat.sub_self, List.filter_cons_of_pos (by simpa using hnew), distinct_cons]
  rfl

/-- The number of a variable after renumbering is that of its place, and the tag is the first
one. -/
theorem IsNth.renumber {i : Nat} {v w : TVar} (h : IsNth vs i v) (hw : w.id = v.id) (first : Nat) :
    w.renumber first (distinct vs) = ⟨first + i, v.tag⟩ := by
  have hv := h.getElem?_distinct
  obtain ⟨hlt, hget⟩ := List.getElem?_eq_some_iff.mp hv
  have hplace : place (distinct vs) w.id = i := by
    rw [hw, place, ← hget]
    have hidx := (nodup_distinct vs).idxOf_getElem i (by rwa [List.length_map])
    rwa [List.getElem_map] at hidx
  rw [TVar.renumber, hplace, hv]
  rfl

end TVar

/-! ### Instances -/

/-- **An instance is a simultaneous renaming by fresh variables.**  The variables that are free in
the typing are those of its resolved form.  The one with the place `i` there is replaced everywhere
by the variable numbered `st.count + i`, with the tag of its first occurrence.  The bindings stay as
they are, and as many numbers are allocated as there are free variables; so neither a typing from
before nor a binding has a variable in common with the instance. -/
theorem instantiate_freshens {st : State} {T : Typing} (hs : st.subst.Acyclic)
    (hbound : ∀ n t, st.subst[n]? = some t → n < st.count ∧ ∀ w ∈ t.ids, w < st.count)
    (hT : ∀ w ∈ T.ids, w < st.count) :
    let free := (T.apply st.subst).types.flatMap Term.vars
    let copy := (instantiate T st).1
    let st' := (instantiate T st).2
    (∀ v ∈ free, st.subst[v.id]? = none) ∧
      (∃ σ : TVar → TVar, copy = (T.apply st.subst).mapTypes (Term.map σ) ∧
        ∀ w ∈ free, ∃ i v, TVar.IsNth free i v ∧ v.id = w.id ∧ σ w = ⟨st.count + i, v.tag⟩) ∧
      st' = { st with count := st.count + (free.map TVar.id).toFinset.card } ∧
      (∀ n ∈ copy.ids, st.count ≤ n ∧ n < st'.count) ∧
      (∀ U : Typing, (∀ w ∈ U.ids, w < st.count) → ∀ w ∈ U.ids, w ∉ copy.ids) ∧
      ∀ n t, st.subst[n]? = some t → n ∉ copy.ids ∧ ∀ w ∈ t.ids, w ∉ copy.ids := by
  intro free copy st'
  -- the variables of the resolved typing are unbound and allocated
  have hres : (T.apply st.subst).All fun t => ∀ w ∈ t.ids, st.subst[w]? = none ∧ w < st.count := by
    refine Typing.all_mapTypes.mpr ((Typing.forall_mem_ids.mp hT).imp fun t ht w hw => ?_)
    have hclosed : st.subst.ClosedOn (· < st.count) := fun n t _ hn => (hbound n t hn).2
    exact ⟨hs.unbound_of_mem_ids_apply hw, hs.ids_apply_subset hclosed ht w hw⟩
  have hids := Typing.forall_mem_ids.mpr hres
  have heq := instantiate_eq fun w hw => (hids w hw).2
  have hcopy : copy = (T.apply st.subst).renumber st.count := congrArg Prod.fst heq
  have hst : st' = { st with count := st.count + (free.map TVar.id).toFinset.card } := by
    rw [← TVar.length_distinct_eq_card]
    exact congrArg Prod.snd heq
  -- the numbers that stand in the copy are slots, which start at the count
  have hnew : ∀ n ∈ copy.ids, st.count ≤ n ∧ n < st'.count := by
    intro n hn
    rw [hcopy] at hn
    obtain ⟨m, hm, rfl⟩ := Typing.ids_renumber hn
    rw [hst, ← TVar.length_distinct_eq_card]
    exact Typing.slot_bounds hm
  -- so nothing that was there before has a variable in common with the copy
  have hold : ∀ n < st.count, n ∉ copy.ids := fun n hn hmem => by
    have := (hnew n hmem).1
    omega
  refine ⟨fun v hv => ?_, ⟨TVar.renumber st.count (T.apply st.subst).freeVars, hcopy, ?_⟩, hst,
    hnew, fun U hU w hw => hold w (hU w hw), fun n t hn => ?_⟩
  · obtain ⟨t, ht, hv⟩ := List.mem_flatMap.mp hv
    exact (hres t ht v.id (Ty.mem_ids hv)).1
  · intro w hw
    obtain ⟨i, v, hi, hv⟩ := TVar.exists_isNth hw
    exact ⟨i, v, hi, hv, hi.renumber hv.symm st.count⟩
  · exact ⟨hold n (hbound n t hn).1, fun w hw => hold w ((hbound n t hn).2 w hw)⟩

/-- An instance of a typing whose variables come up bound and unbound, in its type, in its context
and in what it declares, and one of them with two tags. -/
theorem instantiate_freshens_shared :
    let st : State := { count := 5, subst := Subst.ofList [(3, .var ⟨1, none⟩)] }
    let T : Typing := ⟨.arrow (.var ⟨3, none⟩) (.var ⟨2, some "VAR"⟩),
      [("x", [.var ⟨2, none⟩, .var ⟨0, none⟩])],
      [("y", .closed (.product [.var ⟨1, some "VAR"⟩, .var ⟨4, none⟩]))]⟩
    let copy := (instantiate T st).1
    st.subst.Acyclic ∧ (∀ w ∈ T.ids, w < 5) ∧ (instantiate T st).2.count = 9 ∧
      copy.types = [.arrow (.var ⟨5, none⟩) (.var ⟨6, some "VAR"⟩), .var ⟨6, some "VAR"⟩,
        .var ⟨7, none⟩, .product [.var ⟨5, none⟩, .var ⟨8, none⟩]] ∧
      ∀ U : Typing, (∀ w ∈ U.ids, w < 5) → ∀ w ∈ U.ids, w ∉ copy.ids := by
  intro st T copy
  have hs : st.subst.Acyclic := Subst.acyclic_ofList (by decide)
  have hbound : ∀ n t, st.subst[n]? = some t → n < st.count ∧ ∀ w ∈ t.ids, w < st.count := by
    intro n t hn
    simp only [st, Subst.ofList, List.foldl_cons, List.foldl_nil, Std.ExtTreeMap.getElem?_insert,
      Nat.compare_eq_eq, Std.ExtTreeMap.getElem?_empty] at hn
    split at hn
    · next heq =>
      obtain rfl := Option.some.inj hn
      subst heq
      decide
    · cases hn
  have hT : ∀ w ∈ T.ids, w < st.count := by decide
  obtain ⟨-, -, -, -, hdisjoint, -⟩ := instantiate_freshens hs hbound hT
  exact ⟨hs, hT, by decide +kernel, by decide +kernel, hdisjoint⟩

end LetTyping
