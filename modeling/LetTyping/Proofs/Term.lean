import LetTyping.Ty

/-!
# The algebra of terms

Replacing variables twice is replacing them once, and what a replacement does to a term depends only
on the variables that occur in it.  A term has a height, the most constructors on a path from its
root down; its compound parts are as many as its constructors.

## Main definitions

* `Term.height` — the most constructors on a path from the root down.
* `Term.compounds` — the parts of a term that are constructors applied to terms.
* `Ty.ids` — the numbers of the variables of a type.
* `Ty.eval` — a type without tags, with a type without tags for every variable.

## Main results

* `Term.bind_bind`, `Term.bind_congr` — replacing twice, and replacing alike.
* `Term.constructors_lt_of_mem_vars` — what replaces a variable is smaller than the whole.
-/

namespace LetTyping

namespace Term

variable {V W X : Type}

/-! ### Replacing variables -/

/-- Replacements that agree on the variables of a term agree on the term. -/
theorem bind_congr {f g : V → Term W} {t : Term V} (h : ∀ v ∈ t.vars, f v = g v) :
    t.bind f = t.bind g := by
  induction t using Term.induction with
  | var v => exact h v (by simp)
  | con name args ih =>
    rw [bind_con, bind_con]
    congr 1
    refine List.map_congr_left fun a ha => ih a ha fun v hv => h v ?_
    rw [vars_con, List.mem_flatMap]
    exact ⟨a, ha, hv⟩

theorem bind_bind (f : V → Term W) (g : W → Term X) (t : Term V) :
    (t.bind f).bind g = t.bind fun v => (f v).bind g := by
  induction t using Term.induction with
  | var v => rfl
  | con name args ih =>
    rw [bind_con, bind_con, bind_con, List.map_map]
    congr 1
    exact List.map_congr_left ih

@[simp] theorem bind_var_self (t : Term V) : t.bind var = t := by
  induction t using Term.induction with
  | var v => rfl
  | con name args ih =>
    rw [bind_con]
    congr 1
    conv => rhs; rw [← List.map_id args]
    exact List.map_congr_left ih

/-- What stands for the variables can be read off. -/
theorem eq_of_bind_eq {f g : V → Term W} {t : Term V} (h : t.bind f = t.bind g) :
    ∀ v ∈ t.vars, f v = g v := by
  induction t using Term.induction with
  | var v => simpa using h
  | con name args ih =>
    rw [bind_con, bind_con, con.injEq] at h
    intro v hv
    rw [vars_con, List.mem_flatMap] at hv
    obtain ⟨a, ha, hv⟩ := hv
    exact ih a ha (List.map_inj_left.mp h.2 a ha) v hv

theorem map_congr {f g : V → W} {t : Term V} (h : ∀ v ∈ t.vars, f v = g v) :
    t.map f = t.map g :=
  bind_congr fun v hv => by rw [h v hv]

theorem map_map (f : V → W) (g : W → X) (t : Term V) : (t.map f).map g = t.map (g ∘ f) :=
  bind_bind _ _ t

theorem bind_map (f : V → W) (g : W → Term X) (t : Term V) : (t.map f).bind g = t.bind (g ∘ f) :=
  bind_bind _ _ t

theorem map_bind (f : V → Term W) (g : W → X) (t : Term V) :
    (t.bind f).map g = t.bind fun v => (f v).map g :=
  bind_bind _ _ t

/-- A renaming that keeps the variables of a term keeps the term. -/
theorem map_eq_self {f : V → V} {t : Term V} (h : ∀ v ∈ t.vars, f v = v) : t.map f = t := by
  rw [map_congr h]
  exact bind_var_self t

@[simp] theorem vars_map (f : V → W) (t : Term V) : (t.map f).vars = t.vars.map f := by
  induction t using Term.induction with
  | var v => rfl
  | con name args ih =>
    simp only [map_con, vars_con, List.flatMap_map, List.map_flatMap]
    rw [List.flatMap_def, List.flatMap_def, List.map_congr_left ih]

/-! ### Sizes -/

theorem constructors_le_of_mem {a : Term V} {args : List (Term V)} (h : a ∈ args) :
    a.constructors ≤ constructorsList args := by
  induction args with
  | nil => simp at h
  | cons b bs ih =>
    rw [constructorsList_cons]
    rcases List.mem_cons.mp h with rfl | h
    · omega
    · have := ih h
      omega

theorem constructors_le_of_mem_vars (f : V → Term W) {t : Term V} {v : V} (h : v ∈ t.vars) :
    (f v).constructors ≤ (t.bind f).constructors := by
  induction t using Term.induction with
  | var w => simp_all
  | con name args ih =>
    rw [vars_con, List.mem_flatMap] at h
    obtain ⟨a, ha, hv⟩ := h
    have hle := constructors_le_of_mem (List.mem_map_of_mem (f := bind f) ha)
    have := ih a ha hv
    rw [bind_con, constructors_con]
    omega

/-- What replaces a variable is smaller than the whole that it stands in. -/
theorem constructors_lt_of_mem_vars (f : V → Term W) {name : String} {args : List (Term V)} {v : V}
    (h : v ∈ (con name args).vars) :
    (f v).constructors < ((con name args).bind f).constructors := by
  rw [vars_con, List.mem_flatMap] at h
  obtain ⟨a, ha, hv⟩ := h
  have hle := constructors_le_of_mem (List.mem_map_of_mem (f := bind f) ha)
  have := constructors_le_of_mem_vars f hv
  rw [bind_con, constructors_con]
  omega

mutual

/-- The most constructors on a path from the root down. -/
def height : Term V → Nat
  | var _ => 0
  | con _ args => heightList args + 1

/-- The most constructors on a path down from one of some terms. -/
def heightList : List (Term V) → Nat
  | [] => 0
  | t :: ts => max (height t) (heightList ts)

end

@[simp] theorem height_var (v : V) : (var v).height = 0 := rfl

@[simp] theorem height_con (name : String) (args : List (Term V)) :
    (con name args).height = heightList args + 1 := rfl

theorem height_le_heightList {a : Term V} {args : List (Term V)} (h : a ∈ args) :
    a.height ≤ heightList args := by
  induction args with
  | nil => simp at h
  | cons b bs ih =>
    rw [heightList]
    rcases List.mem_cons.mp h with rfl | h
    · exact Nat.le_max_left _ _
    · exact Nat.le_trans (ih h) (Nat.le_max_right _ _)

/-- The height of some terms is that of one of them, unless there is no constructor at all. -/
theorem exists_height_eq_heightList (args : List (Term V)) :
    heightList args = 0 ∨ ∃ a ∈ args, a.height = heightList args := by
  induction args with
  | nil => exact Or.inl rfl
  | cons b bs ih =>
    rw [heightList]
    rcases Nat.le_total (height b) (heightList bs) with h | h
    · rw [Nat.max_eq_right h]
      rcases ih with h0 | ⟨a, ha, hh⟩
      · exact Or.inl h0
      · exact Or.inr ⟨a, List.mem_cons_of_mem _ ha, hh⟩
    · rw [Nat.max_eq_left h]
      exact Or.inr ⟨b, List.mem_cons_self, rfl⟩

/-- The height is one more than that of an argument, unless it is one. -/
theorem exists_height_con (name : String) (args : List (Term V)) :
    (con name args).height = 1 ∨ ∃ a ∈ args, (con name args).height = a.height + 1 := by
  rw [height_con]
  rcases exists_height_eq_heightList args with h | ⟨a, ha, h⟩
  · exact Or.inl (by rw [h])
  · exact Or.inr ⟨a, ha, by rw [h]⟩

@[simp] theorem height_map (f : V → W) (t : Term V) : (t.map f).height = t.height := by
  induction t using Term.induction with
  | var v => rfl
  | con name args ih =>
    rw [map_con, height_con, height_con]
    congr 1
    induction args with
    | nil => rfl
    | cons a as ihs =>
      rw [List.map_cons, heightList, heightList, ih a List.mem_cons_self,
        ihs fun b hb => ih b (List.mem_cons_of_mem _ hb)]

/-! ### Compound parts -/

mutual

/-- The parts of a term that are constructors applied to terms. -/
def compounds : Term V → List (Term V)
  | var _ => []
  | con name args => con name args :: compoundsList args

/-- The compound parts of some terms. -/
def compoundsList : List (Term V) → List (Term V)
  | [] => []
  | t :: ts => compounds t ++ compoundsList ts

end

@[simp] theorem compoundsList_eq_flatMap (ts : List (Term V)) :
    compoundsList ts = ts.flatMap compounds := by
  induction ts with
  | nil => rfl
  | cons t ts ih => rw [compoundsList, ih, List.flatMap_cons]

@[simp] theorem compounds_var (v : V) : (var v).compounds = [] := rfl

@[simp] theorem compounds_con (name : String) (args : List (Term V)) :
    (con name args).compounds = con name args :: args.flatMap compounds := by
  rw [compounds, compoundsList_eq_flatMap]

/-- There are as many compound parts as constructors. -/
theorem length_compounds (t : Term V) : t.compounds.length = t.constructors := by
  induction t using Term.induction with
  | var v => rfl
  | con name args ih =>
    rw [compounds, constructors_con, List.length_cons]
    congr 1
    induction args with
    | nil => rfl
    | cons a as ihs =>
      rw [compoundsList, constructorsList_cons, List.length_append, ih a List.mem_cons_self,
        ihs fun b hb => ih b (List.mem_cons_of_mem _ hb)]

end Term

/-! ### Types without tags -/

namespace Ty

/-- The numbers of the variables of a type, from left to right. -/
def ids (t : Ty) : List Nat := t.vars.map TVar.id

@[simp] theorem ids_var (v : TVar) : ids (.var v) = [v.id] := rfl

@[simp] theorem ids_con (name : String) (args : List Ty) :
    ids (.con name args) = args.flatMap ids := by
  rw [ids, Term.vars_con, List.map_flatMap]
  rfl

theorem mem_ids {t : Ty} {v : TVar} (h : v ∈ t.vars) : v.id ∈ t.ids := List.mem_map_of_mem h

/-- A type without tags, with the type `θ n` for the variable numbered `n`. -/
def eval (θ : Nat → Term Nat) (t : Ty) : Term Nat := t.bind fun v => θ v.id

@[simp] theorem eval_var (θ : Nat → Term Nat) (v : TVar) : eval θ (.var v) = θ v.id := rfl

@[simp] theorem eval_con (θ : Nat → Term Nat) (name : String) (args : List Ty) :
    eval θ (.con name args) = .con name (args.map (eval θ)) := by
  rw [eval, Term.bind_con]
  rfl

theorem eval_congr {θ η : Nat → Term Nat} {t : Ty} (h : ∀ n ∈ t.ids, θ n = η n) :
    t.eval θ = t.eval η :=
  Term.bind_congr fun _ hv => h _ (mem_ids hv)

@[simp] theorem eval_eq_untagged (t : Ty) : t.eval .var = t.untagged := rfl

theorem untagged_bind (f : TVar → Ty) (t : Ty) :
    untagged (t.bind f) = t.bind fun v => (f v).untagged :=
  Term.map_bind _ _ t

theorem same_iff {s t : Ty} : s.same t ↔ s.untagged = t.untagged := decide_eq_true_iff

/-- A variable is smaller than a compound type that it occurs in, whatever stands for it. -/
theorem eval_ne_of_mem_ids (θ : Nat → Term Nat) {name : String} {args : List Ty} {n : Nat}
    (h : n ∈ ids (.con name args)) : θ n ≠ eval θ (.con name args) := by
  intro heq
  obtain ⟨v, hv, rfl⟩ := List.mem_map.mp h
  have hlt := Term.constructors_lt_of_mem_vars (fun v : TVar => θ v.id) hv
  change (θ v.id).constructors < (eval θ (.con name args)).constructors at hlt
  rw [← heq] at hlt
  exact Nat.lt_irrefl _ hlt

end Ty

end LetTyping
