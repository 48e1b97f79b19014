import LetTyping.Proofs.MostGeneral

/-!
# Unification without shortcuts

The plain way to unify follows bindings and writes nothing but new ones.  It keeps no trail, because
it works on a substitution of its own and gives it up when it fails.  Unification does the same with
less work: it shortens the chains of bindings that it passes, writes in place, and takes the writes
back after a failure.  None of this can be seen in its results.

The two runs are compared side by side.  Their substitutions may differ in every chain, and the
terms that they compare may differ in their arguments; but they resolve all types alike, and that is
enough to take the same steps.

## Main definitions

* `plainUnify` — unification without shortcuts, down to a given depth.
* `Subst.Equivalent` — two substitutions bind the same variables and resolve types alike.
* `SideBySide` — what unification and plain unification have found agrees.

## Main results

* `Subst.Acyclic.apply_insert` — a new binding replaces its variable in resolved types.
* `Subst.Equivalent.root` — equivalent substitutions lead to terms of the same form.
* `Run.unifyWithin_sideBySide` — the two runs agree on every level of the recursion.
* `unify_agrees_plainUnify` — **shortening chains and the trail cannot be seen.**
-/

namespace LetTyping

/-! ### Plain unification -/

/-- Binds a variable, unless it occurs in the term that it would be bound to. -/
def plainBind (v : TVar) (t : Ty) (s : Subst) : Except Clash Subst :=
  if v.id ∈ (s.apply t).ids then .error (.infinite v (s.apply t)) else .ok (s.insert v.id t)

/-- Unifies types pairwise, from left to right, up to the first clash. -/
def plainUnifyAll (unify : Ty → Ty → Subst → Option (Except Clash Subst)) :
    List Ty → List Ty → Subst → Option (Except Clash Subst)
  | a :: as, b :: bs, s =>
    match unify a b s with
    | some (.ok s) => plainUnifyAll unify as bs s
    | stopped => stopped
  | _, _, s => some (.ok s)

/-- Unifies two terms that stand for themselves, where `unify` unifies their arguments.  Of two
variables the second is bound to the first. -/
def plainMeet (unify : Ty → Ty → Subst → Option (Except Clash Subst)) :
    Ty → Ty → Subst → Option (Except Clash Subst)
  | .var v, .var w, s => some (if v.id = w.id then .ok s else plainBind w (.var v) s)
  | .var v, .con n ts, s => some (plainBind v (.con n ts) s)
  | .con n ts, .var w, s => some (plainBind w (.con n ts) s)
  | .con m ss, .con n ts, s =>
    if m = n ∧ ss.length = ts.length then plainUnifyAll unify ss ts s else some (.error .mismatch)

/-- Unifies two types.  There is no result if the recursion would go deeper than `depth`. -/
def plainUnifyWithin : Nat → Ty → Ty → Subst → Option (Except Clash Subst)
  | 0, _, _, _ => none
  | depth + 1, a, b, s => plainMeet (plainUnifyWithin depth) (s.root a) (s.root b) s

/-- Makes two types equal by adding bindings, or says why that is impossible. -/
def plainUnify (depth : Nat) (s : Subst) (a b : Ty) : Option (Except TypeCause Subst) :=
  (plainUnifyWithin depth a b s).map (Except.mapError (Clash.cause s a b))

/-! ### Equivalent substitutions -/

namespace Subst

variable {s s' : Subst} {n : Nat} {t t' : Ty}

/-- A new binding does not show in a type whose resolved form is without its variable. -/
theorem Acyclic.apply_insert_of_not_mem (hs : s.Acyclic) (hn : s[n]? = none)
    (hins : Acyclic (Std.ExtTreeMap.insert s n t)) {x : Ty} (hx : n ∉ (s.apply x).ids) :
    apply (Std.ExtTreeMap.insert s n t) x = s.apply x := by
  -- other variables keep their bindings
  have hget : ∀ m : Nat, m ≠ n → (Std.ExtTreeMap.insert s n t)[m]? = s[m]? := by
    intro m hm
    rw [Std.ExtTreeMap.getElem?_insert, if_neg]
    rw [Nat.compare_eq_eq]
    exact hm.symm
  induction x using hs.induction with
  | unbound v hv =>
    rw [apply_var_of_unbound hv] at hx ⊢
    refine apply_var_of_unbound ((hget v.id fun heq => hx ?_).trans hv)
    simp [heq]
  | bound v u hv ih =>
    have hne : v.id ≠ n := by
      rintro rfl
      rw [hn] at hv
      cases hv
    rw [hs.apply_var_of_bound hv] at hx ⊢
    rw [hins.apply_var_of_bound ((hget v.id hne).trans hv), ih hx]
  | con name args ih =>
    rw [apply_con, Ty.ids_con, List.mem_flatMap] at hx
    rw [apply_con, apply_con]
    exact congrArg _ (List.map_congr_left fun a ha =>
      ih a ha fun hmem => hx ⟨_, List.mem_map_of_mem ha, hmem⟩)

/-- **A new binding replaces its variable in resolved types**, and changes nothing else there. -/
theorem Acyclic.apply_insert (hs : s.Acyclic) (hn : s[n]? = none) (ht : n ∉ (s.apply t).ids)
    (x : Ty) : apply (Std.ExtTreeMap.insert s n t) x =
      (s.apply x).bind fun v => if v.id = n then s.apply t else .var v := by
  have hins := hs.insert hn ht
  have hnew : (Std.ExtTreeMap.insert s n t)[n]? = some t := by simp
  induction x using hs.induction with
  | unbound v hv =>
    rw [apply_var_of_unbound hv, Term.bind_var]
    -- the variable is replaced by the resolved type, in which it does not occur itself
    by_cases heq : v.id = n
    · rw [if_pos heq, hins.apply_var_of_bound ((congrArg _ heq).trans hnew),
        hs.apply_insert_of_not_mem hn hins ht]
    · rw [if_neg heq, hs.apply_insert_of_not_mem hn hins, apply_var_of_unbound hv]
      rw [apply_var_of_unbound hv, Ty.ids_var, List.mem_singleton]
      exact Ne.symm heq
  | bound v u hv ih =>
    have hne : n ≠ v.id := by
      rintro rfl
      rw [hn] at hv
      cases hv
    -- a bound variable is another one and keeps its binding
    have hv' : (Std.ExtTreeMap.insert s n t)[v.id]? = some u := by
      rw [Std.ExtTreeMap.getElem?_insert, if_neg (by rwa [Nat.compare_eq_eq]), hv]
    rw [hins.apply_var_of_bound hv', hs.apply_var_of_bound hv, ih]
  | con name args ih =>
    rw [apply_con, apply_con, Term.bind_con, List.map_map]
    exact congrArg _ (List.map_congr_left ih)

/-- What `s` resolves alike, `s'` resolves alike. -/
def Coarser (s s' : Subst) : Prop := ∀ x y, s.apply x = s.apply y → s'.apply x = s'.apply y

theorem Coarser.refl (s : Subst) : Coarser s s := fun _ _ h => h

theorem Coarser.trans {s'' : Subst} (h : Coarser s s') (h' : Coarser s' s'') : Coarser s s'' :=
  fun x y heq => h' x y (h x y heq)

theorem Acyclic.coarser_insert (hs : s.Acyclic) (hn : s[n]? = none) (ht : n ∉ (s.apply t).ids) :
    Coarser s (Std.ExtTreeMap.insert s n t) := by
  intro x y heq
  rw [hs.apply_insert hn ht, hs.apply_insert hn ht, heq]

/-- Two acyclic substitutions that bind the same variables and resolve all types alike. -/
structure Equivalent (s s' : Subst) : Prop where
  left : s.Acyclic
  right : s'.Acyclic
  unbound_iff : ∀ n : Nat, s[n]? = none ↔ s'[n]? = none
  apply_eq : ∀ t, s.apply t = s'.apply t

namespace Equivalent

theorem refl (hs : s.Acyclic) : Equivalent s s := ⟨hs, hs, fun _ => Iff.rfl, fun _ => rfl⟩

/-- Shorter chains make no difference. -/
theorem compressed {r r' : Run} (h : r.subst.Equivalent s) (hc : r.Compressed r') :
    r'.subst.Equivalent s where
  left := hc.acyclic
  right := h.right
  unbound_iff := fun n => (hc.unbound_iff n).trans (h.unbound_iff n)
  apply_eq := fun t => (hc.apply_eq t).trans (h.apply_eq t)

/-- Substitutions stay equivalent when a variable is bound in both, to types that they resolve
alike. -/
theorem insert (h : s.Equivalent s') (hn : s[n]? = none) (heq : s.apply t = s'.apply t')
    (hnt : n ∉ (s.apply t).ids) :
    Equivalent (Std.ExtTreeMap.insert s n t) (Std.ExtTreeMap.insert s' n t') := by
  have hn' := (h.unbound_iff n).mp hn
  have hnt' : n ∉ (s'.apply t').ids := heq ▸ hnt
  refine ⟨h.left.insert hn hnt, h.right.insert hn' hnt', fun m => ?_, fun x => ?_⟩
  · rw [Std.ExtTreeMap.getElem?_insert, Std.ExtTreeMap.getElem?_insert]
    split
    · exact iff_of_false (by simp) (by simp)
    · exact h.unbound_iff m
  · rw [h.left.apply_insert hn hnt, h.right.apply_insert hn' hnt', h.apply_eq x, heq]

end Equivalent

/-- Two terms have the same form: they are one variable, or one constructor with arguments that `s`
and `s'` resolve alike. -/
inductive SameForm (s s' : Subst) : Ty → Ty → Prop
  | var (v : TVar) : SameForm s s' (.var v) (.var v)
  | con (name : String) {args args' : List Ty} :
      List.Forall₂ (fun x x' => s.apply x = s'.apply x') args args' →
      SameForm s s' (.con name args) (.con name args')

theorem SameForm.apply_eq (hform : SameForm s s' t t') (h : s.Equivalent s') :
    s.apply t = s'.apply t' := by
  cases hform with
  | var v => exact h.apply_eq _
  | con name hargs =>
    rw [apply_con, apply_con]
    exact congrArg _ (List.forall₂_eq_eq_eq ▸ List.forall₂_map_left_iff.mpr
      (List.forall₂_map_right_iff.mpr hargs))

theorem SameForm.compressed {r r' : Run} (hform : SameForm r.subst s t t') (hc : r.Compressed r') :
    SameForm r'.subst s t t' := by
  cases hform with
  | var v => exact .var v
  | con name hargs => exact .con name (hargs.imp fun x _ heq => (hc.apply_eq x).trans heq)

/-- **Equivalent substitutions lead to terms of the same form** from types that they resolve
alike. -/
theorem Equivalent.root (h : s.Equivalent s') (heq : s.apply t = s'.apply t') :
    SameForm s s' (s.root t) (s'.root t') := by
  -- a type is resolved like the term that it stands for, so the two terms are resolved alike
  rw [← h.left.apply_root, ← h.right.apply_root] at heq
  cases hr : s.root t with
  | var v =>
    rw [hr, apply_var_of_unbound (h.left.unbound_of_root hr)] at heq
    cases hr' : s'.root t' with
    | var w =>
      rw [hr', apply_var_of_unbound (h.right.unbound_of_root hr')] at heq
      exact heq ▸ .var v
    | con name args =>
      rw [hr', apply_con] at heq
      cases heq
  | con name args =>
    rw [hr, apply_con] at heq
    cases hr' : s'.root t' with
    | var w =>
      rw [hr', apply_var_of_unbound (h.right.unbound_of_root hr')] at heq
      cases heq
    | con name' args' =>
      rw [hr', apply_con, Term.con.injEq] at heq
      obtain ⟨rfl, hargs⟩ := heq
      refine .con name ?_
      rw [← List.forall₂_map_right_iff, ← List.forall₂_map_left_iff, hargs]
      exact List.forall₂_same.mpr fun _ _ => rfl

end Subst

/-! ### Side by side -/

/-- What unification and plain unification from `s₀` have found agrees: equivalent bindings, which
keep what was resolved alike, or the same clash. -/
inductive SideBySide (s₀ : Subst) : Except Clash Unit × Run → Option (Except Clash Subst) → Prop
  | ok {r : Run} {s : Subst} : r.subst.Equivalent s → s₀.Coarser s →
      SideBySide s₀ (.ok (), r) (some (.ok s))
  | error {clash : Clash} {r : Run} : SideBySide s₀ (.error clash, r) (some (.error clash))

namespace Run

variable {U : List Ty} {depth depth' : Nat} {r : Run} {s : Subst}

/-- A variable is bound alike to types that are resolved alike. -/
theorem bindVar_sideBySide (h : r.subst.Equivalent s) {v : TVar} {t t' : Ty}
    (hv : r.subst[v.id]? = none) (heq : r.subst.apply t = s.apply t')
    (hh : (r.subst.apply t).height < depth) :
    SideBySide s (r.bindVar depth v t) (some (plainBind v t' s)) := by
  obtain ⟨hc, hocc⟩ := occurs_spec v.id depth t r h.left hv hh
  rw [bindVar, plainBind, ← heq]
  rcases hres : r.occurs v.id depth t with ⟨_ | _, r₁⟩ <;> rw [hres] at hc hocc
  · have hnot : v.id ∉ (r.subst.apply t).ids := fun hmem => absurd (hocc.mpr hmem) (by simp)
    rw [if_neg hnot]
    have heq₁ : r₁.subst.apply t = s.apply t' := (hc.apply_eq t).trans heq
    have hnot₁ : v.id ∉ (r₁.subst.apply t).ids := by rwa [hc.apply_eq]
    exact .ok ((h.compressed hc).insert ((hc.unbound_iff v.id).mpr hv) heq₁ hnot₁)
      (h.right.coarser_insert ((h.unbound_iff v.id).mp hv) (heq ▸ hnot))
  · rw [if_pos (hocc.mp rfl), ← hc.apply_eq t]
    exact .error

/-- If two types are unified alike, then so are types pairwise. -/
theorem unifyAll_sideBySide
    (ih : ∀ (a b a' b' : Ty) (r : Run) (s : Subst), Ready U depth r.subst a b →
      r.subst.Equivalent s → r.subst.apply a = s.apply a' → r.subst.apply b = s.apply b' →
      SideBySide s (unifyWithin depth a b r) (plainUnifyWithin depth' a' b' s))
    {as as' : List Ty} (has : List.Forall₂ (fun x x' => r.subst.apply x = s.apply x') as as') :
    ∀ {bs bs' : List Ty}, List.Forall₂ (fun x x' => r.subst.apply x = s.apply x') bs bs' →
      ReadyAll U depth r.subst as bs → r.subst.Equivalent s →
      SideBySide s (unifyAll (unifyWithin depth) as bs r)
        (plainUnifyAll (plainUnifyWithin depth') as' bs' s) := by
  induction as generalizing as' r s with
  | nil =>
    intro bs bs' _ _ h
    cases has
    exact .ok h (.refl s)
  | cons a as ihs =>
    intro bs bs' hbs hready h
    obtain ⟨a', rest, ha, hrest, rfl⟩ := List.forall₂_cons_left_iff.mp has
    cases hbs with
    | nil => exact .ok h (.refl s)
    | @cons b b' bs bs' hb hbs =>
      have hhead := ih a b a' b' r s hready.head h ha hb
      have htail := hready.tail_of_ok
      rw [unifyAll, plainUnifyAll]
      generalize unifyWithin depth a b r = found at hhead htail ⊢
      generalize plainUnifyWithin depth' a' b' s = found' at hhead ⊢
      cases hhead with
      | error => exact .error
      | @ok r₁ s₁ h₁ hcoarse =>
        -- what the two runs resolved alike before the first pair, they resolve alike after it
        have hkeep : ∀ {x x'}, r.subst.apply x = s.apply x' → r₁.subst.apply x = s₁.apply x' :=
          fun heq => (h₁.apply_eq _).trans (hcoarse _ _ ((h.apply_eq _).symm.trans heq))
        have htails := ihs (hrest.imp fun _ _ => hkeep) (hbs.imp fun _ _ => hkeep) (htail rfl) h₁
        simp only
        generalize unifyAll (unifyWithin depth) as bs r₁ = found at htails ⊢
        generalize plainUnifyAll (plainUnifyWithin depth') rest bs' s₁ = found' at htails ⊢
        cases htails with
        | error => exact .error
        | ok h₂ hcoarse₂ => exact .ok h₂ (hcoarse.trans hcoarse₂)

/-- If two types are unified alike one level below, then so are two terms that stand for
themselves. -/
theorem meet_sideBySide
    (ih : ∀ (a b a' b' : Ty) (r : Run) (s : Subst), Ready U depth r.subst a b →
      r.subst.Equivalent s → r.subst.apply a = s.apply a' → r.subst.apply b = s.apply b' →
      SideBySide s (unifyWithin depth a b r) (plainUnifyWithin depth' a' b' s))
    {a b a' b' : Ty} (hready : Ready U (depth + 1) r.subst a b) (h : r.subst.Equivalent s)
    (ha : r.subst.SameForm s a a') (hb : r.subst.SameForm s b b')
    (hfree : ∀ v, a = .var v → r.subst[v.id]? = none)
    (hfree' : ∀ v, b = .var v → r.subst[v.id]? = none) :
    SideBySide s (meet depth a b r) (plainMeet (plainUnifyWithin depth') a' b' s) := by
  have hheight := hready.leftWithin.height_lt h.left hready.built
  have hheight' := hready.rightWithin.height_lt h.left hready.built
  have haeq := ha.apply_eq h
  have hbeq := hb.apply_eq h
  -- both sides have terms of the same form, so the same case applies to both
  cases ha with
  | var v =>
    cases hb with
    | var w =>
      rw [meet, plainMeet]
      by_cases hvw : v.id = w.id
      · rw [if_pos hvw, if_pos hvw]
        exact .ok h (.refl s)
      · rw [if_neg hvw, if_neg hvw]
        exact bindVar_sideBySide h (hfree' w rfl) haeq hheight
    | con n hts => exact bindVar_sideBySide h (hfree v rfl) hbeq hheight'
  | @con m ss ss' hss =>
    cases hb with
    | var w => exact bindVar_sideBySide h (hfree' w rfl) haeq hheight
    | @con n ts ts' hts =>
      rw [meet, plainMeet, ← hss.length_eq, ← hts.length_eq]
      by_cases hmn : m = n ∧ ss.length = ts.length
      · rw [if_pos hmn, if_pos hmn]
        exact unifyAll_sideBySide ih hss hts hready.args h
      · rw [if_neg hmn, if_neg hmn]
        exact .error

/-- **The two runs agree on every level of the recursion.** -/
theorem unifyWithin_sideBySide : ∀ (depth depth' : Nat), depth ≤ depth' →
    ∀ (a b a' b' : Ty) (r : Run) (s : Subst), Ready U depth r.subst a b → r.subst.Equivalent s →
      r.subst.apply a = s.apply a' → r.subst.apply b = s.apply b' →
      SideBySide s (unifyWithin depth a b r) (plainUnifyWithin depth' a' b' s) := by
  intro depth
  induction depth with
  | zero =>
    intro depth' _ a b a' b' r s hready _ _ _
    exact absurd (hready.leftWithin.height_lt hready.acyclic hready.built) (by omega)
  | succ depth ih =>
    intro depth' hle a b a' b' r s hready h ha hb
    obtain ⟨below, rfl⟩ : ∃ below, depth' = below + 1 := ⟨depth' - 1, by omega⟩
    -- one run searches and shortens chains, the other one follows them
    have hc₁ := find_compressed h.left a
    have hc₂ := find_compressed hc₁.acyclic b
    have h₁ := h.compressed hc₁
    obtain ⟨hready₂, -, -⟩ := hready.find
    rw [unifyWithin_succ, plainUnifyWithin]
    refine meet_sideBySide (ih below (by omega)) hready₂ (h₁.compressed hc₂) ?_ ?_ ?_ ?_
    · exact (h.root ha).compressed (hc₁.trans hc₂)
    · exact (h₁.root ((hc₁.apply_eq b).trans hb)).compressed hc₂
    · exact fun v hv => ((hc₁.trans hc₂).unbound_iff v.id).mpr (h.left.unbound_of_root hv)
    · exact fun v hv => (hc₂.unbound_iff v.id).mpr (hc₁.acyclic.unbound_of_root hv)

end Run

/-- **Shortening chains and the trail cannot be seen.**  Plain unification has a result, whatever
depth above the number of constructors is allowed.  Either both succeed, and bind the same variables
and resolve every type alike, down to the numbers of the variables; or both fail with the same cause
and texts, and the substitution is as it was. -/
theorem unify_agrees_plainUnify {s : Subst} (hs : s.Acyclic) (a b : Ty) {depth : Nat}
    (hdepth : s.constructors + a.constructors + b.constructors < depth) :
    (∃ s', plainUnify depth s a b = some (.ok s') ∧ (unify s a b).1 = .ok () ∧
        (∀ n : Nat, (unify s a b).2[n]? = none ↔ s'[n]? = none) ∧
        ∀ t, (unify s a b).2.apply t = s'.apply t) ∨
      ∃ cause, plainUnify depth s a b = some (.error cause) ∧ unify s a b = (.error cause, s) := by
  have hrun := Run.unifyWithin_sideBySide _ depth hdepth a b a b ⟨s, []⟩ s (ready_parts hs a b)
    (.refl hs) rfl rfl
  have hundo := Run.undo_unifyWithin (s.constructors + a.constructors + b.constructors + 1) a b s
  rw [plainUnify, unify]
  generalize Run.unifyWithin _ a b ⟨s, []⟩ = found at hrun hundo ⊢
  generalize plainUnifyWithin depth a b s = found' at hrun ⊢
  cases hrun with
  | ok h _ => exact Or.inl ⟨_, rfl, rfl, h.unbound_iff, h.apply_eq⟩
  | @error clash r =>
    refine Or.inr ⟨clash.cause s a b, rfl, ?_⟩
    simp only at hundo ⊢
    rw [hundo]

/-- A chain of three bindings, which unification shortens and plain unification does not. -/
theorem unify_agrees_plainUnify_chain :
    let s := Subst.ofList [(3, .var ⟨2, none⟩), (2, .var ⟨1, none⟩), (1, .var ⟨0, none⟩)]
    let a := Ty.product [.var ⟨3, none⟩, .var ⟨4, none⟩]
    let b := Ty.product [.var ⟨5, none⟩, .int]
    s.Acyclic ∧ s.constructors + a.constructors + b.constructors < 9 ∧
      ∃ s', plainUnify 9 s a b = some (.ok s') ∧ (unify s a b).1 = .ok () ∧
        (unify s a b).2[3]? = some (.var ⟨0, none⟩) ∧ s'[3]? = some (.var ⟨2, none⟩) ∧
        (∀ n : Nat, (unify s a b).2[n]? = none ↔ s'[n]? = none) ∧
        ∀ t, (unify s a b).2.apply t = s'.apply t := by
  intro s a b
  have hs : s.Acyclic := Subst.acyclic_ofList (by decide)
  have hdepth : s.constructors + a.constructors + b.constructors < 9 := by decide +kernel
  have hok : (unify s a b).1 = .ok () := by decide +kernel
  have hshort : (unify s a b).2[3]? = some (.var ⟨0, none⟩) := by decide +kernel
  have hlong : ((plainUnify 9 s a b).bind Except.toOption).bind (·[3]?) =
      some (.var ⟨2, none⟩) := by decide +kernel
  refine ⟨hs, hdepth, ?_⟩
  rcases unify_agrees_plainUnify hs a b hdepth with ⟨s', hplain, -, hrest⟩ | ⟨cause, -, hfail⟩
  · rw [hplain] at hlong
    exact ⟨s', hplain, hok, hshort, hlong, hrest⟩
  · rw [hfail] at hok
    cases hok

end LetTyping
