import LetTyping.Proofs.Solution
import LetTyping.Proofs.Typing
import LetTyping.State

/-!
# Instances of typings

An instance of a typing is a copy of its resolved form in which every variable is replaced by a
fresh one.  So it is a renaming: different variables stay different, and giving types to the fresh
variables amounts to giving types to the variables of the typing.

## Main definitions

* `TVar.renumber` — the fresh variable for a variable.
* `Typing.renumber` — a typing with all its variables numbered afresh.

## Main results

* `TVar.mem_distinct`, `TVar.nodup_distinct` — every variable is listed once.
* `renumbering_apply` — numbering variables afresh is renaming them.
* `instantiate_eq` — **an instance is a renaming of the resolved typing by fresh variables.**
-/

namespace LetTyping

namespace TVar

/-! ### The first occurrences of variables -/

theorem distinct_cons (v : TVar) (vs : List TVar) :
    distinct (v :: vs) = v :: distinct (vs.filter fun w => w.id ≠ v.id) := by
  rw [distinct, List.eraseDupsBy_cons, distinct]
  simp only [beq_eq_false_iff_ne]

/-- Induction along the first occurrences of variables. -/
theorem distinct_induction {motive : List TVar → Prop} (nil : motive [])
    (cons : ∀ v vs, motive (vs.filter fun w => w.id ≠ v.id) → motive (v :: vs))
    (vs : List TVar) : motive vs := by
  induction hn : vs.length using Nat.strong_induction_on generalizing vs with
  | _ n ih =>
    cases vs with
    | nil => exact nil
    | cons v vs =>
      refine cons v vs (ih _ ?_ _ rfl)
      rw [← hn]
      exact Nat.lt_succ_of_le (List.length_filter_le _ _)

/-- The other numbers are left when the variables with one number are left out. -/
theorem mem_map_id_filter {v : TVar} {vs : List TVar} {n : Nat} (hn : n ≠ v.id) :
    n ∈ (vs.filter fun w => w.id ≠ v.id).map TVar.id ↔ n ∈ vs.map TVar.id := by
  simp only [List.mem_map, List.mem_filter, decide_eq_true_eq]
  constructor
  · rintro ⟨w, ⟨hw, -⟩, rfl⟩
    exact ⟨w, hw, rfl⟩
  · rintro ⟨w, hw, rfl⟩
    exact ⟨w, ⟨hw, hn⟩, rfl⟩

/-- Every variable is listed. -/
theorem mem_distinct {vs : List TVar} {n : Nat} :
    n ∈ (distinct vs).map TVar.id ↔ n ∈ vs.map TVar.id := by
  induction vs using distinct_induction with
  | nil => rfl
  | cons v vs ih =>
    rw [distinct_cons, List.map_cons, List.map_cons, List.mem_cons, List.mem_cons, ih]
    by_cases hn : n = v.id
    · exact iff_of_true (Or.inl hn) (Or.inl hn)
    · exact or_congr_right (mem_map_id_filter hn)

/-- No variable is listed twice. -/
theorem nodup_distinct (vs : List TVar) : ((distinct vs).map TVar.id).Nodup := by
  induction vs using distinct_induction with
  | nil => exact List.nodup_nil
  | cons v vs ih =>
    rw [distinct_cons, List.map_cons, List.nodup_cons]
    refine ⟨fun hmem => ?_, ih⟩
    rw [mem_distinct] at hmem
    obtain ⟨w, hw, heq⟩ := List.mem_map.mp hmem
    exact absurd heq (by simpa using (List.mem_filter.mp hw).2)

/-- What comes later is listed later, without what is listed already. -/
theorem distinct_append (vs ws : List TVar) :
    distinct (vs ++ ws) = distinct vs ++ distinct (ws.filter fun w => w.id ∉ vs.map TVar.id) := by
  induction vs using distinct_induction generalizing ws with
  | nil => simp [distinct]
  | cons v vs ih =>
    rw [List.cons_append, distinct_cons, List.filter_append, ih, distinct_cons, List.filter_filter,
      List.cons_append]
    congr 3
    refine List.filter_congr fun w _ => ?_
    by_cases hw : w.id = v.id
    · simp [hw]
    · simp only [mem_map_id_filter hw, List.map_cons, List.mem_cons, hw, false_or, ne_eq,
        not_false_eq_true, decide_true, Bool.and_true]

/-! ### Numbering afresh -/

/-- The place of a variable in a list of variables. -/
def place (vs : List TVar) (n : Nat) : Nat := (vs.map TVar.id).idxOf n

/-- The variable of a list that stands for a given one, numbered by its place from `first` on. -/
def renumber (first : Nat) (vs : List TVar) (v : TVar) : TVar :=
  ⟨first + place vs v.id, (vs[place vs v.id]?).elim v.tag TVar.tag⟩

@[simp] theorem renumber_id (first : Nat) (vs : List TVar) (v : TVar) :
    (v.renumber first vs).id = first + place vs v.id := rfl

theorem place_lt {vs : List TVar} {n : Nat} (h : n ∈ vs.map TVar.id) : place vs n < vs.length := by
  have := List.idxOf_lt_length_iff.mpr h
  rwa [List.length_map] at this

theorem place_inj {vs : List TVar} {m n : Nat} (hm : m ∈ vs.map TVar.id)
    (h : place vs m = place vs n) : m = n :=
  (List.idxOf_inj hm).mp h

theorem getElem?_place {vs : List TVar} {n : Nat} (h : n ∈ vs.map TVar.id) :
    ∃ v, vs[place vs n]? = some v ∧ v.id = n := by
  have hget := List.getElem?_idxOf h
  rw [List.getElem?_map] at hget
  exact Option.map_eq_some_iff.mp hget

end TVar

namespace Subst

/-! ### Substitutions given by lists -/

theorem getElem?_foldl_insert_of_not_mem {bindings : List (Nat × Ty)} {n : Nat}
    (h : n ∉ bindings.map Prod.fst) (s : Subst) :
    (bindings.foldl (fun s (entry : Nat × Ty) => s.insert entry.1 entry.2) s)[n]? = s[n]? := by
  induction bindings generalizing s with
  | nil => rfl
  | cons entry bindings ih =>
    rw [List.map_cons, List.mem_cons, not_or] at h
    rw [List.foldl_cons, ih h.2, Std.ExtTreeMap.getElem?_insert, if_neg]
    rw [Nat.compare_eq_eq]
    exact fun heq => h.1 heq.symm

theorem getElem?_ofList_of_not_mem {bindings : List (Nat × Ty)} {n : Nat}
    (h : n ∉ bindings.map Prod.fst) : (ofList bindings)[n]? = none := by
  refine (getElem?_foldl_insert_of_not_mem h ∅).trans ?_
  exact Std.ExtTreeMap.getElem?_empty

theorem getElem?_ofList_of_mem {bindings : List (Nat × Ty)} (hb : (bindings.map Prod.fst).Nodup)
    {n : Nat} {t : Ty} (h : (n, t) ∈ bindings) : (ofList bindings)[n]? = some t := by
  have key : ∀ s : Subst,
      (bindings.foldl (fun s (entry : Nat × Ty) => s.insert entry.1 entry.2) s)[n]? = some t := by
    induction bindings with
    | nil => exact absurd h (by simp)
    | cons entry bindings ih =>
      intro s
      rw [List.map_cons, List.nodup_cons] at hb
      rw [List.foldl_cons]
      rcases List.mem_cons.mp h with rfl | h
      · rw [getElem?_foldl_insert_of_not_mem hb.1]
        simp
      · exact ih hb.2 h _
  exact key ∅

end Subst

/-! ### Renumbering as a substitution -/

section Renumbering

variable {first : Nat} {vs : List TVar}

theorem keys_renumbering (first : Nat) (vs : List TVar) :
    ((vs.zipIdx first).map fun (v, id) => (v.id, (Term.var ⟨id, v.tag⟩ : Ty))).map Prod.fst =
      vs.map TVar.id := by
  rw [List.map_map, ← List.zipIdx_map_fst first vs, List.map_map, List.zipIdx_map_fst]
  rfl

theorem getElem?_renumbering (hvs : (vs.map TVar.id).Nodup) {v : TVar}
    (h : v.id ∈ vs.map TVar.id) :
    (renumbering first vs)[v.id]? = some (.var (v.renumber first vs)) := by
  obtain ⟨w, hw, heq⟩ := TVar.getElem?_place h
  refine Subst.getElem?_ofList_of_mem (by rwa [keys_renumbering]) ?_
  refine List.mem_map.mpr ⟨(w, first + TVar.place vs v.id), ?_, ?_⟩
  · exact List.mk_add_mem_zipIdx_iff_getElem?.mpr hw
  · simp only [TVar.renumber, hw, heq, Option.elim_some]

theorem getElem?_renumbering_of_not_mem {n : Nat} (h : n ∉ vs.map TVar.id) :
    (renumbering first vs)[n]? = none :=
  Subst.getElem?_ofList_of_not_mem (by rwa [keys_renumbering])

/-- If the new numbers are above the old ones, no variable is taken back to itself. -/
theorem renumbering_acyclic (hvs : (vs.map TVar.id).Nodup)
    (hlt : ∀ n ∈ vs.map TVar.id, n < first) : (renumbering first vs).Acyclic := by
  refine Subst.acyclic_of_rank (fun n => if n < first then 1 else 0) ?_
  rintro v w ⟨u, hu, hw⟩
  by_cases hv : v ∈ vs.map TVar.id
  · rw [getElem?_renumbering (v := ⟨v, none⟩) hvs hv, Option.some.injEq] at hu
    rw [← hu, Ty.ids_var, List.mem_singleton] at hw
    rw [if_pos (hlt v hv), if_neg]
    · exact Nat.zero_lt_one
    · rw [hw, TVar.renumber_id]
      omega
  · rw [getElem?_renumbering_of_not_mem hv] at hu
    exact absurd hu (by simp)

/-- **Numbering variables afresh is renaming them**, if the new numbers are above the old ones. -/
theorem renumbering_apply (hvs : (vs.map TVar.id).Nodup) (hlt : ∀ n ∈ vs.map TVar.id, n < first)
    {t : Ty} (ht : ∀ w ∈ t.ids, w ∈ vs.map TVar.id) :
    (renumbering first vs).apply t = t.map (TVar.renumber first vs) := by
  have hnew : ∀ v : TVar, (renumbering first vs)[(v.renumber first vs).id]? = none := by
    intro v
    refine getElem?_renumbering_of_not_mem fun hmem => ?_
    have := hlt _ hmem
    rw [TVar.renumber_id] at this
    omega
  rw [Subst.apply_eq_bind, Term.map]
  refine Term.bind_congr fun v hv => ?_
  rw [(renumbering_acyclic hvs hlt).apply_var_of_bound
      (getElem?_renumbering hvs (ht v.id (Ty.mem_ids hv))),
    Subst.apply_var_of_unbound (hnew v)]

end Renumbering

/-! ### Instances -/

theorem Typing.mem_freeVars {T : Typing} {n : Nat} : n ∈ T.freeVars.map TVar.id ↔ n ∈ T.ids := by
  rw [freeVars, TVar.mem_distinct, ids, List.map_flatMap]
  rfl

/-- The typing with its variables numbered afresh from `first` on. -/
def Typing.renumber (first : Nat) (T : Typing) : Typing :=
  T.mapTypes (Term.map (TVar.renumber first T.freeVars))

/-- The number of the variable that stands for `n` in a typing whose variables are numbered afresh
from `first` on. -/
def Typing.slot (first : Nat) (T : Typing) (n : Nat) : Nat := first + TVar.place T.freeVars n

namespace Typing

variable {first : Nat} {T : Typing}

/-- The new numbers follow one another. -/
theorem slot_bounds {n : Nat} (h : n ∈ T.ids) :
    first ≤ T.slot first n ∧ T.slot first n < first + T.freeVars.length := by
  have := TVar.place_lt (mem_freeVars.mpr h)
  rw [slot]
  omega

/-- Different variables stay different. -/
theorem slot_inj {m n : Nat} (hm : m ∈ T.ids) (h : T.slot first m = T.slot first n) : m = n := by
  refine TVar.place_inj (mem_freeVars.mpr hm) ?_
  rw [slot, slot] at h
  omega

/-- What the fresh variables are taken to may be chosen, by choosing for the variables they stand
for. -/
theorem exists_assignment {α : Type} (T : Typing) (first : Nat) (η θ : Nat → α) :
    ∃ η' : Nat → α, (∀ m < first, η' m = η m) ∧ ∀ m ∈ T.ids, η' (T.slot first m) = θ m := by
  refine ⟨fun k => if k < first then η k else θ ((T.freeVars.map TVar.id).getD (k - first) 0),
    fun m hm => if_pos hm, fun m hm => ?_⟩
  have hget : (T.freeVars.map TVar.id)[TVar.place T.freeVars m]? = some m :=
    List.getElem?_idxOf (mem_freeVars.mpr hm)
  simp only [slot, Nat.add_sub_cancel_left, List.getD_eq_getElem?_getD, hget, Option.getD_some]
  exact if_neg (by omega)

theorem mem_ids_renumber {t : Ty} {w : Nat}
    (h : w ∈ Ty.ids (t.map (TVar.renumber first T.freeVars))) :
    ∃ n ∈ t.ids, w = T.slot first n := by
  rw [Ty.ids, Term.vars_map, List.map_map, List.mem_map] at h
  obtain ⟨v, hv, rfl⟩ := h
  exact ⟨v.id, Ty.mem_ids hv, rfl⟩

theorem ids_renumber {w : Nat} (h : w ∈ (T.renumber first).ids) :
    ∃ n ∈ T.ids, w = T.slot first n := by
  rw [ids, renumber, types_mapTypes, List.flatMap_map, List.mem_flatMap] at h
  obtain ⟨t, ht, hw⟩ := h
  obtain ⟨n, hn, rfl⟩ := mem_ids_renumber hw
  exact ⟨n, List.mem_flatMap.mpr ⟨t, ht, hn⟩, rfl⟩

/-- Giving types to the fresh variables is giving types to the variables they stand for. -/
theorem eval_renumber (θ : Nat → Term Nat) (t : Ty) :
    Ty.eval θ (t.map (TVar.renumber first T.freeVars)) = t.eval fun n => θ (T.slot first n) :=
  Term.bind_map _ _ t

end Typing

/-- **An instance is a renaming of the resolved typing by fresh variables.** -/
theorem instantiate_eq {T : Typing} {st : State} (h : ∀ w ∈ (T.apply st.subst).ids, w < st.count) :
    instantiate T st = ((T.apply st.subst).renumber st.count,
      { st with count := st.count + (T.apply st.subst).freeVars.length }) := by
  change ((T.apply st.subst).apply _, _) = _
  refine congrArg₂ Prod.mk (Typing.mapTypes_congr fun t ht => ?_) rfl
  refine renumbering_apply (TVar.nodup_distinct _) (fun n hn => ?_) fun w hw => ?_
  · exact h n (Typing.mem_freeVars.mp hn)
  · exact Typing.mem_freeVars.mpr (List.mem_flatMap.mpr ⟨t, ht, hw⟩)

end LetTyping
