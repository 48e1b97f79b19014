import LetTyping.Proofs.Compression
import LetTyping.Proofs.Solution

/-!
# How deep unification goes

Unification writes parts of the types it is given and of the bindings from the start, and no others.
On a path through a resolved type no such part comes twice, because every part is higher than the
next one.  So no resolved type is ever higher than the number of all the constructors there were at
the start, and that number bounds the depth of the recursion.

## Main definitions

* `Ty.BuiltFrom` — all the compound parts of a type are in a list.
* `Subst.BuiltFrom` — all the bindings are of that kind.
* `Within` — a type is not high, also after any bindings that unification can add.

## Main results

* `Subst.Acyclic.height_apply_le` — resolved types are no higher than there are parts.
* `Within.start` — the depth that unification starts with is enough.
-/

namespace LetTyping

variable {U : List Ty} {s s' : Subst} {t u : Ty} {depth : Nat}

/-! ### The parts of types -/

/-- All the compound parts of a type are in the list `U`. -/
def Ty.BuiltFrom (U : List Ty) (t : Ty) : Prop := ∀ c ∈ t.compounds, c ∈ U

/-- All the compound parts of the bindings are in the list `U`. -/
def Subst.BuiltFrom (U : List Ty) (s : Subst) : Prop := s.Bounded (fun _ => True) (Ty.BuiltFrom U)

theorem hereditary_builtFrom (U : List Ty) : Hereditary (fun _ => True) (Ty.BuiltFrom U) where
  var := fun _ _ => trivial
  args := fun name args h a ha c hc => by
    refine h c ?_
    rw [Term.compounds_con]
    exact List.mem_cons_of_mem _ (List.mem_flatMap.mpr ⟨a, ha, hc⟩)

/-- All the compound parts of the bindings and of two types. -/
def parts (s : Subst) (a b : Ty) : List Ty :=
  s.toList.flatMap (fun entry => entry.2.compounds) ++ (a.compounds ++ b.compounds)

theorem length_parts (s : Subst) (a b : Ty) :
    (parts s a b).length = s.constructors + a.constructors + b.constructors := by
  have hfold : ∀ (entries : List (Nat × Ty)) (n : Nat),
      entries.foldl (fun n entry => n + entry.2.constructors) n =
        n + (entries.flatMap fun entry => entry.2.compounds).length := by
    intro entries
    induction entries with
    | nil => intro n; rfl
    | cons entry entries ih =>
      intro n
      rw [List.foldl_cons, ih, List.flatMap_cons, List.length_append, Term.length_compounds,
        Nat.add_assoc]
  rw [parts, List.length_append, List.length_append, Term.length_compounds, Term.length_compounds,
    Subst.constructors, Std.ExtTreeMap.foldl_eq_foldl_toList, hfold]
  omega

theorem builtFrom_parts (s : Subst) (a b : Ty) :
    s.BuiltFrom (parts s a b) ∧ a.BuiltFrom (parts s a b) ∧ b.BuiltFrom (parts s a b) := by
  refine ⟨fun v t _ hv c hc => ?_, fun c hc => ?_, fun c hc => ?_⟩
  · refine List.mem_append_left _ (List.mem_flatMap.mpr ⟨(v, t), ?_, hc⟩)
    exact Std.ExtTreeMap.mem_toList_iff_getElem?_eq_some.mpr hv
  · exact List.mem_append_right _ (List.mem_append_left _ hc)
  · exact List.mem_append_right _ (List.mem_append_right _ hc)

/-- **Resolved types are no higher than there are parts.** -/
theorem Subst.Acyclic.height_apply_le (hs : s.Acyclic) (hU : s.BuiltFrom U) (ht : t.BuiltFrom U) :
    (s.apply t).height ≤ U.length := by
  -- a type of height `n` has `n` different parts on a path, one of each height up to `n`
  have key : ∀ (n : Nat) (t : Ty), t.BuiltFrom U → (s.apply t).height = n →
      n ≤ (U.toFinset.filter fun c => (s.apply c).height ≤ n).card := by
    intro n
    induction n with
    | zero => intro t _ _; exact Nat.zero_le _
    | succ n ih =>
      intro t ht hn
      have hroot : (s.root t).BuiltFrom U :=
        (Run.chase_spec (hereditary_builtFrom U) hU s.size t ht).1
      rw [← hs.apply_root] at hn
      cases hr : s.root t with
      | var v =>
        rw [hr, Subst.apply_var_of_unbound (hs.unbound_of_root hr), Term.height_var] at hn
        exact absurd hn (by omega)
      | con name args =>
        rw [hr] at hn hroot
        have hmem : Term.con name args ∈ U := hroot _ (by simp)
        refine Nat.lt_of_le_of_lt (m := (U.toFinset.filter fun c => (s.apply c).height ≤ n).card)
          ?_ (Finset.card_lt_card ((Finset.ssubset_iff_of_subset ?_).mpr ⟨.con name args, ?_, ?_⟩))
        · rw [Subst.apply_con] at hn
          rcases Term.exists_height_con name (args.map s.apply) with h1 | ⟨_, hb, h1⟩
          · omega
          · obtain ⟨a, ha, rfl⟩ := List.mem_map.mp hb
            exact ih a ((hereditary_builtFrom U).args name args hroot a ha) (by omega)
        · intro c hc
          rw [Finset.mem_filter] at hc ⊢
          exact ⟨hc.1, by omega⟩
        · rw [Finset.mem_filter, List.mem_toFinset]
          exact ⟨hmem, by omega⟩
        · intro hc
          have := (Finset.mem_filter.mp hc).2
          omega
  calc (s.apply t).height
      ≤ (U.toFinset.filter fun c => (s.apply c).height ≤ (s.apply t).height).card :=
        key _ t ht rfl
    _ ≤ U.toFinset.card := Finset.card_filter_le _ _
    _ ≤ U.length := List.toFinset_card_le _

/-! ### Depth enough for what is to come -/

/-- The type `t` has fewer than `depth` constructors on every path, resolved by any substitution
that is built from `U` and satisfies the bindings of `s`. -/
def Within (U : List Ty) (depth : Nat) (s : Subst) (t : Ty) : Prop :=
  ∀ s' : Subst, s'.Acyclic → s'.BuiltFrom U → Solves (s'.extend .var) s →
    (s'.apply t).height < depth

namespace Within

/-- The depth that unification starts with is enough. -/
theorem start (ht : t.BuiltFrom U) : Within U (U.length + 1) s t := fun _ hs' hU _ =>
  Nat.lt_succ_of_le (hs'.height_apply_le hU ht)

theorem height_lt (h : Within U depth s t) (hs : s.Acyclic) (hU : s.BuiltFrom U) :
    (s.apply t).height < depth :=
  h s hs hU (hs.solves_extend _)

/-- Enough depth stays enough when bindings are added. -/
theorem mono (h : Within U depth s t) (hsub : ∀ θ, Solves θ s' → Solves θ s) :
    Within U depth s' t := fun s₁ hs₁ hU hθ => h s₁ hs₁ hU (hsub _ hθ)

/-- Enough depth for a type is enough for a type that it has to be equal to. -/
theorem of_eval_eq (h : Within U depth s t) (heq : ∀ θ, Solves θ s → t.eval θ = u.eval θ) :
    Within U depth s u := by
  intro s₁ hs₁ hU hθ
  have hheight : ∀ x : Ty, (x.eval (s₁.extend .var)).height = (s₁.apply x).height := by
    intro x
    rw [hs₁.eval_extend, Ty.eval_eq_untagged, Ty.untagged, Term.height_map]
  rw [← hheight, ← heq _ hθ, hheight]
  exact h s₁ hs₁ hU hθ

/-- Arguments take one level less. -/
theorem arg {name : String} {args : List Ty} (h : Within U (depth + 1) s (.con name args)) {a : Ty}
    (ha : a ∈ args) : Within U depth s a := by
  intro s₁ hs₁ hU hθ
  have h1 := h s₁ hs₁ hU hθ
  have h2 := Term.height_le_heightList (List.mem_map_of_mem (f := s₁.apply) ha)
  rw [Subst.apply_con, Term.height_con] at h1
  omega

end Within

end LetTyping
