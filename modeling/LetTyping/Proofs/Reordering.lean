import LetTyping.Proofs.Composition
import LetTyping.Proofs.Renaming

/-!
# The order of declared names

The declared names of a typing form a table, and the table has an order.  The order is an accident
of the program text: names are looked up, never counted off.  Two typings that differ in the order
of declared names alone are resolved against in the same way, and their instances differ in the
order of declared names alone.

## Main definitions

* `Shuffled` — two tables of declared names are equal up to order, also within the typings.
* `Reordered` — two typings are equal up to the order of declared names.
* `Typing.Uniform` — every variable of a typing has one tag.

## Main results

* `Shuffled.insertAll` — tables that are put together are equal up to order.
* `instantiate_reordered` — the order has no influence on the type and the context of an instance.
* `ResolutionRun.reordered` — **the order has no influence on how names are resolved.**
-/

namespace LetTyping

/-! ### Tables -/

/-- The second table has the entries of the first one in another order.  Entries that change places
have different names.  The typings of the entries may be reordered in the same way. -/
inductive Shuffled : Defined → Defined → Prop
  | nil : Shuffled [] []
  | cons {name : String} {T T' : Typing} {d d' : Defined} : T'.ty = T.ty →
      T'.context = T.context → Shuffled T.defined T'.defined → Shuffled d d' →
      Shuffled ((name, T) :: d) ((name, T') :: d')
  | swap {e e' : String × Typing} {d : Defined} : e.1 ≠ e'.1 →
      Shuffled (e :: e' :: d) (e' :: e :: d)
  | trans {d d' d'' : Defined} : Shuffled d d' → Shuffled d' d'' → Shuffled d d''

/-- The second typing is the first one up to the order of declared names. -/
structure Reordered (T T' : Typing) : Prop where
  ty : T'.ty = T.ty
  context : T'.context = T.context
  defined : Shuffled T.defined T'.defined

namespace Shuffled

variable {d d' t t' u u' : Defined} {T T' : Typing} {name : String}

theorem refl (d : Defined) : Shuffled d d := by
  have hlist : ∀ d : Defined, (∀ e ∈ d, Shuffled e.2.defined e.2.defined) → Shuffled d d := by
    intro d
    induction d with
    | nil => exact fun _ => .nil
    | cons e d ih =>
      intro h
      rw [List.forall_mem_cons] at h
      exact .cons rfl rfl h.1 (ih h.2)
  have htyping : ∀ T : Typing, Shuffled T.defined T.defined := by
    intro T
    induction T using Typing.induction with
    | mk ty context defined ih => exact hlist defined ih
  exact hlist d fun e _ => htyping e.2

theorem cons_same (e : String × Typing) (h : Shuffled d d') : Shuffled (e :: d) (e :: d') :=
  .cons rfl rfl (refl _) h

theorem length_eq (h : Shuffled d d') : d'.length = d.length := by
  induction h with
  | nil => rfl
  | cons _ _ _ _ _ ih => rw [List.length_cons, List.length_cons, ih]
  | swap _ => rfl
  | trans _ _ ih ih' => exact ih'.trans ih

/-- The types of the typings are the same ones. -/
theorem types_perm (h : Shuffled d d') :
    (d.flatMap fun e => e.2.types).Perm (d'.flatMap fun e => e.2.types) := by
  induction h with
  | nil => exact .refl _
  | @cons _ T T' _ _ hty hcontext _ _ ih ih' =>
    obtain ⟨ty, context, inner⟩ := T
    obtain ⟨ty', context', inner'⟩ := T'
    cases hty
    cases hcontext
    simp only [List.flatMap_cons, Typing.types, Typing.definedTypes_eq_flatMap]
    exact ((ih.append_left _).cons _).append ih'
  | swap _ =>
    simp only [List.flatMap_cons, ← List.append_assoc]
    exact List.perm_append_comm.append_right _
  | trans _ _ ih ih' => exact ih.trans ih'

theorem mapTypes (h : Shuffled d d') (f : Ty → Ty) :
    Shuffled (Table.mapValues (Typing.mapTypes f) d) (Table.mapValues (Typing.mapTypes f) d') := by
  induction h with
  | nil => exact .nil
  | cons hty hcontext _ _ ih ih' =>
    refine .cons ?_ ?_ ?_ ih'
    · rw [Typing.mapTypes_ty, Typing.mapTypes_ty, hty]
    · rw [Typing.mapTypes_context, Typing.mapTypes_context, hcontext]
    · rwa [Typing.mapTypes_defined, Typing.mapTypes_defined]
  | swap hne => exact .swap hne
  | trans _ _ ih ih' => exact .trans ih ih'

/-- A name is declared in both tables, in the same way up to order, or in neither. -/
theorem get? (h : Shuffled d d') (name : String) :
    (Table.get? d name = none ∧ Table.get? d' name = none) ∨
      ∃ T T', Table.get? d name = some T ∧ Table.get? d' name = some T' ∧ Reordered T T' := by
  induction h with
  | nil => exact Or.inl ⟨rfl, rfl⟩
  | cons hty hcontext hinner _ _ ih =>
    rw [Table.get?_cons, Table.get?_cons]
    split
    · exact Or.inr ⟨_, _, rfl, rfl, hty, hcontext, hinner⟩
    · exact ih
  | @swap e e' d hne =>
    -- an exchange of different names cannot be seen by a lookup
    have hsame : Table.get? (e' :: e :: d) name = Table.get? (e :: e' :: d) name := by
      rw [Table.get?_cons, Table.get?_cons, Table.get?_cons, Table.get?_cons]
      split
      · next h => rw [if_neg (h ▸ hne)]
      · rfl
    rw [hsame]
    cases Table.get? (e :: e' :: d) name with
    | none => exact Or.inl ⟨rfl, rfl⟩
    | some T => exact Or.inr ⟨T, T, rfl, rfl, rfl, rfl, refl _⟩
  | trans _ _ ih ih' =>
    rcases ih with ⟨hnone, hnone'⟩ | ⟨T, T', hT, hT', hTT'⟩
    · rcases ih' with ⟨-, hnone''⟩ | ⟨S, _, hS, -, -⟩
      · exact Or.inl ⟨hnone, hnone''⟩
      · rw [hnone'] at hS
        cases hS
    · rcases ih' with ⟨hnone, -⟩ | ⟨S, S', hS, hS', hSS'⟩
      · rw [hT'] at hnone
        cases hnone
      · rw [hT', Option.some.injEq] at hS
        subst hS
        exact Or.inr ⟨T, S', hT, hS', hSS'.ty.trans hTT'.ty, hSS'.context.trans hTT'.context,
          hTT'.defined.trans hSS'.defined⟩

/-! ### Tables that are put together -/

theorem insert_value (h : Reordered T T') (d : Defined) (name : String) :
    Shuffled (Table.insert d name T) (Table.insert d name T') := by
  induction d with
  | nil => exact .cons h.ty h.context h.defined .nil
  | cons e d ih =>
    rw [Table.insert, Table.insert, Table.alter, Table.alter]
    split
    · exact .cons h.ty h.context h.defined (refl d)
    · exact .cons_same _ ih

theorem insert (h : Shuffled d d') (name : String) (T : Typing) :
    Shuffled (Table.insert d name T) (Table.insert d' name T) := by
  induction h with
  | nil => exact refl _
  | cons hty hcontext hinner hrest _ ih =>
    rw [Table.insert, Table.insert, Table.alter, Table.alter]
    split
    · exact .cons_same _ hrest
    · exact .cons hty hcontext hinner ih
  | @swap e e' d hne =>
    simp only [Table.insert, Table.alter]
    -- at most one of the two names is the one that is inserted
    by_cases h₁ : e.1 = name
    · rw [if_pos h₁, if_neg (h₁ ▸ hne.symm), if_pos h₁]
      exact .swap hne
    · by_cases h₂ : e'.1 = name
      · rw [if_neg h₁, if_pos h₂, if_pos h₂]
        exact .swap hne
      · rw [if_neg h₁, if_neg h₂, if_neg h₂, if_neg h₁]
        exact .swap hne
  | trans _ _ ih ih' => exact .trans ih ih'

/-- Different names may be inserted in any order. -/
theorem insert_comm {name' : String} (hne : name ≠ name') (d : Defined) (T T' : Typing) :
    Shuffled (Table.insert (Table.insert d name T) name' T')
      (Table.insert (Table.insert d name' T') name T) := by
  induction d with
  | nil =>
    simp only [Table.insert, Table.alter, if_neg hne, if_neg hne.symm]
    exact .swap hne
  | cons e d ih =>
    simp only [Table.insert, Table.alter] at ih ⊢
    -- the entry has one of the names, or none of them and then it is passed by
    by_cases h₁ : e.1 = name
    · have h₂ : ¬e.1 = name' := h₁ ▸ hne
      simp only [if_pos h₁, if_neg h₂, Table.alter]
      exact refl _
    · by_cases h₂ : e.1 = name'
      · simp only [if_pos h₂, if_neg h₁, Table.alter]
        exact refl _
      · simp only [if_neg h₁, if_neg h₂, Table.alter]
        exact .cons_same _ ih

theorem insertAll_left (h : Shuffled t t') (u : Defined) :
    Shuffled (Table.insertAll t u) (Table.insertAll t' u) := by
  induction u generalizing t t' with
  | nil => exact h
  | cons e u ih => exact ih (h.insert e.1 e.2)

/-- **Tables that are put together are equal up to order** if their parts are. -/
theorem insertAll (h : Shuffled t t') (hu : Shuffled u u') :
    Shuffled (Table.insertAll t u) (Table.insertAll t' u') := by
  refine (h.insertAll_left u).trans ?_
  clear h
  induction hu generalizing t' with
  | nil => exact refl _
  | cons hty hcontext hinner _ _ ih =>
    exact .trans ((insert_value ⟨hty, hcontext, hinner⟩ t' _).insertAll_left _) ih
  | swap hne => exact (insert_comm hne t' _ _).insertAll_left _
  | trans _ _ ih ih' => exact .trans ih ih'

end Shuffled

/-! ### Typings -/

namespace Reordered

variable {T T' T'' : Typing}

theorem refl (T : Typing) : Reordered T T := ⟨rfl, rfl, .refl _⟩

theorem trans (h : Reordered T T') (h' : Reordered T' T'') : Reordered T T'' :=
  ⟨h'.ty.trans h.ty, h'.context.trans h.context, h.defined.trans h'.defined⟩

theorem mapTypes (h : Reordered T T') (f : Ty → Ty) :
    Reordered (T.mapTypes f) (T'.mapTypes f) where
  ty := by rw [Typing.mapTypes_ty, Typing.mapTypes_ty, h.ty]
  context := by rw [Typing.mapTypes_context, Typing.mapTypes_context, h.context]
  defined := by
    rw [Typing.mapTypes_defined, Typing.mapTypes_defined]
    exact h.defined.mapTypes f

theorem types_perm (h : Reordered T T') : T.types.Perm T'.types := by
  obtain ⟨ty, context, defined⟩ := T
  obtain ⟨ty', context', defined'⟩ := T'
  obtain ⟨rfl, rfl, hdefined⟩ := h
  simp only [Typing.types, Typing.definedTypes_eq_flatMap]
  exact (hdefined.types_perm.append_left _).cons _

theorem mem_ids (h : Reordered T T') {n : Nat} : n ∈ T'.ids ↔ n ∈ T.ids :=
  (h.types_perm.flatMap_right _).mem_iff.symm

theorem all (h : Reordered T T') {P : Ty → Prop} (hT : T.All P) : T'.All P :=
  fun t ht => hT t (h.types_perm.mem_iff.mpr ht)

end Reordered

/-! ### Variables in the order of their first occurrences -/

namespace TVar

theorem mem_of_mem_distinct {vs : List TVar} {v : TVar} (h : v ∈ distinct vs) : v ∈ vs := by
  induction vs using distinct_induction with
  | nil => exact h
  | cons w vs ih =>
    rw [distinct_cons] at h
    rcases List.mem_cons.mp h with rfl | h
    · exact List.mem_cons_self
    · exact List.mem_cons_of_mem _ (List.mem_filter.mp (ih h)).1

/-- What follows has no influence on how a variable is numbered. -/
theorem renumber_append {first : Nat} {vs rest : List TVar} {v : TVar} (h : v.id ∈ vs.map TVar.id) :
    v.renumber first (vs ++ rest) = v.renumber first vs := by
  have hplace : place (vs ++ rest) v.id = place vs v.id := by
    rw [place, place, List.map_append, List.idxOf_append_of_mem h]
  rw [renumber, renumber, hplace, List.getElem?_append_left (place_lt h)]

/-- The number of different variables does not depend on their order. -/
theorem length_distinct {vs ws : List TVar} (h : ∀ n, n ∈ ws.map TVar.id ↔ n ∈ vs.map TVar.id) :
    (distinct ws).length = (distinct vs).length := by
  have hperm : ((distinct ws).map TVar.id).Perm ((distinct vs).map TVar.id) :=
    (List.perm_ext_iff_of_nodup (nodup_distinct ws) (nodup_distinct vs)).mpr fun n => by
      rw [mem_distinct, mem_distinct, h n]
  simpa using hperm.length_eq

end TVar

namespace Typing

variable {T T' : Typing} {first : Nat}

/-- The types of a typing without those of the declared names. -/
def ownTypes (T : Typing) : List Ty := T.ty :: T.context.types

theorem types_eq (T : Typing) : T.types = T.ownTypes ++ T.defined.flatMap fun e => e.2.types := by
  obtain ⟨ty, context, defined⟩ := T
  simp only [types, definedTypes_eq_flatMap, ownTypes, List.cons_append]

/-- The type and the context of a typing are numbered first, so the declared names have no influence
on how. -/
theorem renumber_own {t : Ty} (ht : t ∈ T.ownTypes) :
    t.map (TVar.renumber first T.freeVars) =
      t.map (TVar.renumber first (TVar.distinct (T.ownTypes.flatMap Term.vars))) := by
  refine Term.map_congr fun v hv => ?_
  rw [freeVars, types_eq, List.flatMap_append, TVar.distinct_append, TVar.renumber_append]
  exact TVar.mem_distinct.mpr (List.mem_map_of_mem (List.mem_flatMap.mpr ⟨t, ht, hv⟩))

end Typing

theorem Reordered.renumber {T T' : Typing} (h : Reordered T T') (first : Nat) :
    (T'.renumber first).ty = (T.renumber first).ty ∧
      (T'.renumber first).context = (T.renumber first).context := by
  have hown : T'.ownTypes = T.ownTypes := by rw [Typing.ownTypes, Typing.ownTypes, h.ty, h.context]
  have hsame : ∀ t ∈ T.ownTypes, t.map (TVar.renumber first T'.freeVars) =
      t.map (TVar.renumber first T.freeVars) := fun t ht => by
    rw [Typing.renumber_own ht, Typing.renumber_own (hown ▸ ht), hown]
  rw [Typing.renumber, Typing.renumber, Typing.mapTypes_ty, Typing.mapTypes_ty,
    Typing.mapTypes_context, Typing.mapTypes_context, h.ty, h.context]
  refine ⟨hsame _ List.mem_cons_self, Uses.map_congr ?_⟩
  exact Context.forall_mem_types.mp fun t ht => hsame t (List.mem_cons_of_mem _ ht)

theorem Reordered.length_freeVars {T T' : Typing} (h : Reordered T T') :
    T'.freeVars.length = T.freeVars.length := by
  have hids : ∀ T : Typing, (T.types.flatMap Term.vars).map TVar.id = T.ids := fun T => by
    rw [Typing.ids, List.map_flatMap]
    rfl
  exact TVar.length_distinct fun n => by rw [hids, hids, h.mem_ids]

/-! ### Resolving names -/

variable {K : Nat → Prop} {st : State}

/-- **The order of declared names has no influence on the type and the context of an instance.** -/
theorem instantiate_reordered (h : Region K st) {T T' : Typing} (hT : T.All (Owns Anywhere st))
    (hTT' : Reordered T T') :
    (instantiate T' st).2 = (instantiate T st).2 ∧
      (instantiate T' st).1.ty = (instantiate T st).1.ty ∧
        (instantiate T' st).1.context = (instantiate T st).1.context := by
  have hR : Reordered (T.apply st.subst) (T'.apply st.subst) := hTT'.mapTypes _
  obtain ⟨-, -, -, heq⟩ := instantiate_evolves h hT
  obtain ⟨-, -, -, heq'⟩ := instantiate_evolves h (hTT'.all hT)
  rw [heq, heq', hR.length_freeVars]
  exact ⟨rfl, hR.renumber st.count⟩

/-- **The order of declared names has no influence on how names are resolved.** -/
theorem ResolutionRun.reordered {defined defined' : Defined} {span : Span} {depth : Nat}
    {chain : List String} {context out : Context} {res : Outcome Unit Context × State}
    (hrun : ResolutionRun defined span depth chain context out st res) (h : Region K st)
    (hdef : ∀ e ∈ defined, e.2.All (Owns Anywhere st)) (hc : Uses.All (Owns K st) context)
    (hsame : Shuffled defined defined') :
    resolveNames defined' span depth chain context out st = res := by
  -- what is declared in one table is declared in the other one, in the same way up to order
  have hnone : ∀ {name : String}, Table.get? defined name = none →
      Table.get? defined' name = none := by
    intro name hget
    rcases hsame.get? name with ⟨-, hget'⟩ | ⟨T, _, hT, -, -⟩
    · exact hget'
    · rw [hget] at hT
      cases hT
  have hsome : ∀ {name : String} {T : Typing}, Table.get? defined name = some T →
      ∃ T', Table.get? defined' name = some T' ∧ Reordered T T' := by
    intro name T hget
    rcases hsame.get? name with ⟨hnone, -⟩ | ⟨S, S', hS, hS', hSS'⟩
    · rw [hget] at hnone
      cases hnone
    · rw [hget, Option.some.injEq] at hS
      subst hS
      exact ⟨S', hS', hSS'⟩
  induction hrun with
  | nil => exact resolveNames_nil _ _ _ _ _ _
  | undeclared hget _ ih =>
    rw [Uses.all_cons] at hc
    rw [resolveNames_undeclared (hnone hget)]
    exact ih h hdef hc.2
  | recursive hget hrec =>
    obtain ⟨T', hget', -⟩ := hsome hget
    exact resolveNames_recursive hget' hrec _ _ _ _ _
  | clash hget hchain heq =>
    obtain ⟨T', hget', hTT'⟩ := hsome hget
    -- copies of the two declarations have the same type and uses, and leave the same state
    obtain ⟨hstate, hty, -⟩ := instantiate_reordered h (hdef _ (Table.mem_of_get? hget)) hTT'
    rw [resolveNames_declared hget' hchain, hstate, hty, heq]
  | fail hget hchain heq _ ih =>
    rw [Uses.all_cons] at hc
    obtain ⟨T', hget', hTT'⟩ := hsome hget
    obtain ⟨hstate, hty, hcontext⟩ :=
      instantiate_reordered h (hdef _ (Table.mem_of_get? hget)) hTT'
    obtain ⟨h₁, hc₁⟩ := instance_evolves h hdef hget hc.1 heq
    have hinner := ih h₁.region (fun e he => (hdef e he).imp fun t ht => ht.mono h₁.count_le) hc₁
    rw [resolveNames_declared hget' hchain, hstate, hty, heq, hcontext]
    simp only [hinner]
  | declared hget hchain heq hinner _ ih ihrest =>
    rw [Uses.all_cons] at hc
    obtain ⟨T', hget', hTT'⟩ := hsome hget
    obtain ⟨hstate, hty, hcontext⟩ :=
      instantiate_reordered h (hdef _ (Table.mem_of_get? hget)) hTT'
    obtain ⟨h₁, hc₁⟩ := instance_evolves h hdef hget hc.1 heq
    -- the invariant for what follows: nothing that was owned is lost
    have hdef₁ := fun e he => (hdef e he).imp fun t ht => Owns.mono ht h₁.count_le
    obtain ⟨h₂, -⟩ := hinner.evolves h₁.region hdef₁ hc₁
    have hrest := ihrest h₂.region (fun e he => (hdef₁ e he).imp fun t ht => ht.mono h₂.count_le)
      fun e he t ht => (hc.2 e he t ht).mono (le_trans h₁.count_le h₂.count_le)
    rw [resolveNames_declared hget' hchain, hstate, hty, heq, hcontext]
    simp only [ih h₁.region hdef₁ hc₁, hrest]

/-! ### Tags -/

/-- Every variable of the typing has one tag: two variables with the same number are equal. -/
def Typing.Uniform (T : Typing) : Prop :=
  ∀ v ∈ T.types.flatMap Term.vars, ∀ w ∈ T.types.flatMap Term.vars, v.id = w.id → v = w

/-- What is made of a stock has one tag for every variable. -/
theorem Stock.uniform {V : TVar → Prop} {F : Prop} {T : Typing} (h : Stock K V F st)
    (hT : T.All (Ty.MadeOf V F)) : T.Uniform := by
  have hmem : ∀ v ∈ T.types.flatMap Term.vars, V v := by
    intro v hv
    obtain ⟨t, ht, hv⟩ := List.mem_flatMap.mp hv
    exact (hT t ht).mem_vars v hv
  exact fun v hv w hw => h.unique v w (hmem v hv) (hmem w hw)

/-- Numbering afresh is a renaming if every variable has one tag. -/
theorem Typing.Uniform.renumber {T : Typing} (h : T.Uniform) (first : Nat) :
    T.renumber first = T.rename (T.slot first) := by
  refine mapTypes_congr fun t ht => Term.map_congr fun v hv => ?_
  have hmem : v ∈ T.types.flatMap Term.vars := List.mem_flatMap.mpr ⟨t, ht, hv⟩
  obtain ⟨w, hw, hid⟩ := TVar.getElem?_place (mem_freeVars.mpr
    (List.mem_flatMap.mpr ⟨t, ht, Ty.mem_ids hv⟩))
  obtain rfl := h w (TVar.mem_of_mem_distinct (List.mem_of_getElem? hw)) v hmem hid
  rw [TVar.renumber, hw]
  rfl

theorem Typing.Uniform.rename {T : Typing} (h : T.Uniform) {f : Nat → Nat}
    (hf : Set.InjOn f {n | n ∈ T.ids}) : (T.rename f).Uniform := by
  have hvars : (T.rename f).types.flatMap Term.vars =
      (T.types.flatMap Term.vars).map (TVar.rename f) := by
    rw [Typing.rename, types_mapTypes, List.flatMap_map, List.map_flatMap]
    exact List.flatMap_congr fun t _ => Term.vars_map _ t
  have hids : ∀ v ∈ T.types.flatMap Term.vars, v.id ∈ T.ids := by
    intro v hv
    obtain ⟨t, ht, hv⟩ := List.mem_flatMap.mp hv
    exact List.mem_flatMap.mpr ⟨t, ht, Ty.mem_ids hv⟩
  intro v hv w hw heq
  rw [hvars, List.mem_map] at hv hw
  obtain ⟨v, hv, rfl⟩ := hv
  obtain ⟨w, hw, rfl⟩ := hw
  rw [h v hv w hw (hf (hids v hv) (hids w hw) heq)]

theorem Reordered.uniform {T T' : Typing} (h : Reordered T T') (hT : T.Uniform) : T'.Uniform := by
  have hmem : ∀ v, v ∈ T'.types.flatMap Term.vars ↔ v ∈ T.types.flatMap Term.vars := fun v =>
    (h.types_perm.flatMap_right _).mem_iff.symm
  exact fun v hv w hw => hT v ((hmem v).mp hv) w ((hmem w).mp hw)

end LetTyping
