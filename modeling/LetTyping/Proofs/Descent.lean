import LetTyping.Proofs.Plain
import LetTyping.Proofs.Unbounded

/-!
# What decreases along the calls of unification

Unification calls itself for the arguments of the terms that two types stand for.  These terms are
reached through bindings, so the arguments need not be smaller than the types, and the bindings
change from one argument to the next: a binding that is made for one of them can make the others
larger than the whole was before.

What decreases is, first, the number of unbound variables within reach of the two types that
unification was started with.  Every new binding takes one of them away and brings no others in
reach.  Where no binding is made types are resolved as before, and an argument is smaller than the
whole.

## Main definitions

* `Run.Call`, `Run.Comes`, `Run.Calls` — the calls of unification, and which call makes which.
* `Subst.openVars` — the unbound variables within reach of two types.
* `Run.Narrows` — what a successful unification does to the variables within reach.
* `Run.Call.measure` — what decreases.

## Main results

* `Run.unifyWithin_narrows` — unification shortens chains only, or takes a variable away.
* `Run.Call.Sound.step` — the measure decreases along a call.
* `unification_terminates` — **searching, the occurs check, resolving and unification come to their
  ends, and along the calls of unification the measure decreases.**
-/

namespace LetTyping

open Relation

/-! ### Sizes -/

namespace Ty

/-- The number of constructors and of occurrences of variables. -/
def size (t : Ty) : Nat := t.constructors + t.vars.length

theorem size_lt_of_mem {name : String} {args : List Ty} {a : Ty} (h : a ∈ args) :
    a.size < size (.con name args) := by
  have hcons := Term.constructors_le_of_mem h
  have hvars : a.vars.length ≤ (args.flatMap Term.vars).length :=
    (List.sublist_flatten_of_mem (List.mem_map_of_mem h)).length_le
  rw [size, size, Term.constructors_con, Term.vars_con]
  omega

end Ty

/-! ### Variables within reach -/

namespace Subst

variable {s : Subst} {a b t x : Ty} {v w : Nat}

/-- The unbound variables within reach of two types. -/
def openVars (s : Subst) (a b : Ty) : Finset Nat := ((s.apply a).ids ++ (s.apply b).ids).toFinset

theorem mem_openVars : w ∈ s.openVars a b ↔ w ∈ (s.apply a).ids ∨ w ∈ (s.apply b).ids := by
  rw [openVars, List.mem_toFinset, List.mem_append]

/-- The variables within reach are those to which bindings lead. -/
theorem Acyclic.mem_openVars_iff (hs : s.Acyclic) :
    w ∈ s.openVars a b ↔ s[w]? = none ∧ ∃ v ∈ a.ids ++ b.ids, ReflTransGen s.Step v w := by
  simp only [mem_openVars, hs.mem_ids_apply, List.mem_append, or_and_right, exists_or,
    ← and_or_left]

/-- The variables of a type after a new binding. -/
theorem Acyclic.mem_ids_insert (hs : s.Acyclic) (hv : s[v]? = none) (ht : v ∉ (s.apply t).ids) :
    w ∈ (apply (Std.ExtTreeMap.insert s v t) x).ids ↔
      w ∈ (s.apply x).ids ∧ w ≠ v ∨ v ∈ (s.apply x).ids ∧ w ∈ (s.apply t).ids := by
  rw [hs.apply_insert hv ht]
  generalize s.apply x = x
  induction x using Term.induction with
  | var y =>
    rw [Term.bind_var, Ty.ids_var, List.mem_singleton, List.mem_singleton]
    split
    · next hy => grind
    · next hy => grind [Ty.ids_var]
  | con name args ih =>
    simp only [Term.bind_con, Ty.ids_con, List.mem_flatMap, List.mem_map]
    grind

end Subst

namespace Run

variable {U : List Ty} {depth : Nat} {a b t : Ty} {r r' r'' : Run}

/-- All the variables of the resolved type are within reach of `a` and `b`. -/
def Reached (a b : Ty) (r : Run) (t : Ty) : Prop :=
  ∀ w ∈ (r.subst.apply t).ids, w ∈ r.subst.openVars a b

/-- The run `r'` comes from `r` by bindings that bring no variables in reach of `a` and `b`.  It
differs by shorter chains only, or there are fewer variables within reach. -/
structure Narrows (a b : Ty) (r r' : Run) : Prop where
  acyclic : r'.subst.Acyclic
  reached : ∀ t, Reached a b r t → Reached a b r' t
  fewer : Compressed r r' ∨ (r'.subst.openVars a b).card < (r.subst.openVars a b).card

theorem Compressed.openVars_eq (h : Compressed r r') :
    r'.subst.openVars a b = r.subst.openVars a b := by
  rw [Subst.openVars, h.apply_eq, h.apply_eq, Subst.openVars]

namespace Narrows

theorem of_compressed (h : Compressed r r') : Narrows a b r r' where
  acyclic := h.acyclic
  reached := fun t ht => by
    rw [Reached, h.apply_eq, h.openVars_eq]
    exact ht
  fewer := .inl h

theorem card_le (h : Narrows a b r r') :
    (r'.subst.openVars a b).card ≤ (r.subst.openVars a b).card := by
  rcases h.fewer with hc | hlt
  · rw [hc.openVars_eq]
  · exact Nat.le_of_lt hlt

theorem trans (h : Narrows a b r r') (h' : Narrows a b r' r'') : Narrows a b r r'' where
  acyclic := h'.acyclic
  reached := fun t ht => h'.reached t (h.reached t ht)
  fewer := by
    rcases h.fewer with hc | hlt
    · rcases h'.fewer with hc' | hlt'
      · exact .inl (hc.trans hc')
      · exact .inr (hc.openVars_eq ▸ hlt')
    · exact .inr (Nat.lt_of_le_of_lt h'.card_le hlt)

/-- A binding of a variable within reach takes it away. -/
theorem write {v : Nat} (hs : r.subst.Acyclic) (hv : r.subst[v]? = none)
    (hvt : v ∉ (r.subst.apply t).ids) (hreach : v ∈ r.subst.openVars a b)
    (ht : Reached a b r t) : Narrows a b r (r.write v t) := by
  have hids : ∀ {w x}, w ∈ ((r.write v t).subst.apply x).ids ↔
      w ∈ (r.subst.apply x).ids ∧ w ≠ v ∨ v ∈ (r.subst.apply x).ids ∧ w ∈ (r.subst.apply t).ids :=
    hs.mem_ids_insert hv hvt
  -- what is within reach afterwards: the variable is gone, and those of its type come in its place
  have hopen : ∀ {w}, w ∈ (r.write v t).subst.openVars a b ↔
      w ∈ r.subst.openVars a b ∧ w ≠ v ∨ w ∈ (r.subst.apply t).ids := by
    intro w
    rw [Subst.mem_openVars] at hreach ⊢
    rw [hids, hids, Subst.mem_openVars]
    tauto
  refine ⟨hs.insert hv hvt, fun x hx w hw => ?_, .inr (Finset.card_lt_card ?_)⟩
  · rcases hids.mp hw with ⟨hw, hne⟩ | ⟨-, hw⟩
    · exact hopen.mpr (.inl ⟨hx w hw, hne⟩)
    · exact hopen.mpr (.inr hw)
  -- these were within reach before, so the set is smaller by the variable at least
  · refine (Finset.ssubset_iff_of_subset fun w hw => ?_).mpr ⟨v, hreach, fun hmem => ?_⟩
    · exact (hopen.mp hw).elim And.left (ht w)
    · exact (hopen.mp hmem).elim (fun h => h.2 rfl) hvt

end Narrows

/-! ### Unification narrows -/

theorem bindVar_narrows (hs : r.subst.Acyclic) {v : TVar} (hv : r.subst[v.id]? = none)
    (hreach : v.id ∈ r.subst.openVars a b) (ht : Reached a b r t)
    (hheight : (r.subst.apply t).height < depth) (hok : (r.bindVar depth v t).1 = .ok ()) :
    Narrows a b r (r.bindVar depth v t).2 := by
  obtain ⟨hc, hocc⟩ := occurs_spec v.id depth t r hs hv hheight
  rw [bindVar] at hok ⊢
  rcases hres : r.occurs v.id depth t with ⟨_ | _, r₁⟩ <;> rw [hres] at hc hocc hok
  · have hnot : v.id ∉ (r.subst.apply t).ids := fun h => absurd (hocc.mpr h) (by simp)
    have hc' := Narrows.of_compressed (a := a) (b := b) hc
    refine hc'.trans (.write hc.acyclic ((hc.unbound_iff v.id).mpr hv) ?_ ?_ (hc'.reached t ht))
    · rwa [hc.apply_eq]
    · rwa [hc.openVars_eq]
  · cases hok

/-- The variable that a reached type stands for is within reach. -/
theorem Reached.mem {v : TVar} (h : Reached a b r (.var v)) (hv : r.subst[v.id]? = none) :
    v.id ∈ r.subst.openVars a b := by
  refine h v.id ?_
  rw [Subst.apply_var_of_unbound hv, Ty.ids_var]
  exact List.mem_singleton_self _

theorem Reached.arg {name : String} {args : List Ty} (h : Reached a b r (.con name args)) :
    ∀ x ∈ args, Reached a b r x := by
  intro x hx w hw
  refine h w ?_
  rw [Subst.apply_con, Ty.ids_con, List.mem_flatMap]
  exact ⟨_, List.mem_map_of_mem hx, hw⟩

section Level

-- what holds one level below
variable (ih : ∀ (x y : Ty) (r : Run), Ready U depth r.subst x y → Reached a b r x →
  Reached a b r y → (unifyWithin depth x y r).1 = .ok () →
  Narrows a b r (unifyWithin depth x y r).2)

include ih

/-- If unifying two types narrows, then so does unifying types pairwise. -/
theorem unifyAll_narrows {as bs : List Ty} (h : ReadyAll U depth r.subst as bs)
    (has : ∀ x ∈ as, Reached a b r x) (hbs : ∀ y ∈ bs, Reached a b r y)
    (hok : (unifyAll (unifyWithin depth) as bs r).1 = .ok ()) :
    Narrows a b r (unifyAll (unifyWithin depth) as bs r).2 := by
  induction as generalizing bs r with
  | nil => exact .of_compressed (.refl h.acyclic)
  | cons x as ihs =>
    cases bs with
    | nil => exact .of_compressed (.refl h.acyclic)
    | cons y bs =>
      rw [List.forall_mem_cons] at has hbs
      have hnarrows := ih x y r h.head has.1 hbs.1
      have htail := h.tail_of_ok
      rw [unifyAll] at hok ⊢
      rcases hres : unifyWithin depth x y r with ⟨_ | _, r₁⟩ <;> rw [hres] at hok hnarrows htail
      · cases hok
      · have hfirst := hnarrows rfl
        -- what was within reach of the first pair's unification is still within reach
        exact hfirst.trans (ihs (htail rfl) (fun x hx => hfirst.reached x (has.2 x hx))
          (fun y hy => hfirst.reached y (hbs.2 y hy)) hok)

/-- If unification narrows one level below, then so does what is done with two terms that stand for
themselves. -/
theorem meet_narrows {x y : Ty} (h : Ready U (depth + 1) r.subst x y) (hxr : Reached a b r x)
    (hyr : Reached a b r y)
    (hx : ∀ v, x = .var v → r.subst[v.id]? = none) (hy : ∀ v, y = .var v → r.subst[v.id]? = none)
    (hok : (meet depth x y r).1 = .ok ()) : Narrows a b r (meet depth x y r).2 := by
  have hs := h.acyclic
  have hxh := h.leftWithin.height_lt hs h.built
  have hyh := h.rightWithin.height_lt hs h.built
  -- a binding takes a variable away; two equal variables change nothing, and two terms lead to
  -- their arguments
  cases x with
  | var v =>
    cases y with
    | var w =>
      rw [meet] at hok ⊢
      split at hok
      · next heq =>
        rw [if_pos heq]
        exact .of_compressed (.refl hs)
      · next hne =>
        rw [if_neg hne]
        exact bindVar_narrows hs (hy w rfl) (hyr.mem (hy w rfl)) hxr hxh hok
    | con n ts => exact bindVar_narrows hs (hx v rfl) (hxr.mem (hx v rfl)) hyr hyh hok
  | con m ss =>
    cases y with
    | var w => exact bindVar_narrows hs (hy w rfl) (hyr.mem (hy w rfl)) hxr hxh hok
    | con n ts =>
      rw [meet] at hok ⊢
      split at hok
      · next heq =>
        rw [if_pos heq]
        exact unifyAll_narrows ih h.args hxr.arg hyr.arg hok
      · cases hok

end Level

/-- The two searches at the start of each level change nothing within reach. -/
theorem Reached.find (hs : r.subst.Acyclic) {x y : Ty} (hx : Reached a b r x)
    (hy : Reached a b r y) :
    Compressed r ((r.find x).2.find y).2 ∧ Reached a b ((r.find x).2.find y).2 (r.find x).1 ∧
      Reached a b ((r.find x).2.find y).2 ((r.find x).2.find y).1 := by
  have hc₁ := find_compressed hs x
  have hc := hc₁.trans (find_compressed hc₁.acyclic y)
  obtain ⟨hleft, hright⟩ := apply_find hs x y
  refine ⟨hc, ?_, ?_⟩
  · rw [Reached, hc.openVars_eq, hc.apply_eq, hleft]
    exact hx
  · rw [Reached, hc.openVars_eq, hc.apply_eq, hright]
    exact hy

/-- **A successful unification of types within reach narrows.** -/
theorem unifyWithin_narrows (a b : Ty) : ∀ (depth : Nat) (x y : Ty) (r : Run),
    Ready U depth r.subst x y → Reached a b r x → Reached a b r y →
    (unifyWithin depth x y r).1 = .ok () → Narrows a b r (unifyWithin depth x y r).2 := by
  intro depth
  induction depth with
  | zero =>
    intro x y r h
    exact absurd (h.leftWithin.height_lt h.acyclic h.built) (by omega)
  | succ depth ih =>
    intro x y r h hx hy hok
    -- searching first shortens chains, by which nothing comes within reach
    have hc₁ := find_compressed h.acyclic x
    have hc₂ := find_compressed hc₁.acyclic y
    obtain ⟨hc, hx', hy'⟩ := Reached.find h.acyclic hx hy
    rw [unifyWithin_succ] at hok ⊢
    exact (Narrows.of_compressed hc).trans (meet_narrows ih h.find.1 hx' hy'
      (fun v hv => (hc.unbound_iff v.id).mpr (h.acyclic.unbound_of_root hv))
      (fun v hv => (hc₂.unbound_iff v.id).mpr (hc₁.acyclic.unbound_of_root hv)) hok)

/-! ### Calls -/

/-- A call of unification. -/
structure Call where
  left : Ty
  right : Ty
  run : Run

/-- Unifying types pairwise comes to a call, when all the types before it have been unified. -/
inductive Comes : List Ty → List Ty → Run → Call → Prop
  | here {x y : Ty} {as bs : List Ty} {r : Run} : Comes (x :: as) (y :: bs) r ⟨x, y, r⟩
  | later {x y : Ty} {as bs : List Ty} {r r' : Run} {c : Call} : Unifies x y r (.ok (), r') →
      Comes as bs r' c → Comes (x :: as) (y :: bs) r c

/-- A call makes another one, for two arguments of the terms that its types stand for. -/
inductive Calls : Call → Call → Prop
  | intro {x y : Ty} {r r₁ r₂ : Run} {name : String} {ss ts : List Ty} {c : Call} :
      r.Finds x (.con name ss, r₁) → r₁.Finds y (.con name ts, r₂) → ss.length = ts.length →
      Comes ss ts r₂ c → Calls ⟨x, y, r⟩ c

/-- What decreases along the calls of a unification that was started with `a` and `b`: the number of
unbound variables within reach of these two, and then the size of the two types that are to be
unified, once they are resolved. -/
def Call.measure (a b : Ty) (c : Call) : Nat × Nat :=
  ((c.run.subst.openVars a b).card,
    (c.run.subst.apply c.left).size + (c.run.subst.apply c.right).size)

/-- What depth is enough, more is too. -/
theorem Ready.deepen {s : Subst} {x y : Ty} {depth' : Nat} (h : Ready U depth s x y)
    (hle : depth ≤ depth') : Ready U depth' s x y :=
  { h with
    leftWithin := fun s' hs' hU hθ => Nat.lt_of_lt_of_le (h.leftWithin s' hs' hU hθ) hle
    rightWithin := fun s' hs' hU hθ => Nat.lt_of_lt_of_le (h.rightWithin s' hs' hU hθ) hle }

/-- The call that unifying types within reach comes to is for two of them, after bindings that
narrow. -/
theorem Comes.spec {as bs : List Ty} {c : Call} (h : Comes as bs r c)
    (hready : ReadyAll U depth r.subst as bs) (has : ∀ x ∈ as, Reached a b r x)
    (hbs : ∀ y ∈ bs, Reached a b r y) :
    Ready U depth c.run.subst c.left c.right ∧ c.left ∈ as ∧ c.right ∈ bs ∧
      Narrows a b r c.run := by
  induction h with
  | here =>
    exact ⟨hready.head, List.mem_cons_self, List.mem_cons_self,
      .of_compressed (.refl hready.acyclic)⟩
  | @later x y as bs r r' c hunifies _ ih =>
    rw [List.forall_mem_cons] at has hbs
    have hout := (unifies_iff depth x y r hready.head _).mp hunifies
    have hfirst := unifyWithin_narrows a b depth x y r hready.head has.1 hbs.1 (by rw [← hout])
    have htail := hready.tail_of_ok (by rw [← hout])
    rw [← hout] at hfirst htail
    obtain ⟨hc, hleft, hright, hnarrows⟩ := ih htail (fun x hx => hfirst.reached x (has.2 x hx))
      fun y hy => hfirst.reached y (hbs.2 y hy)
    exact ⟨hc, List.mem_cons_of_mem _ hleft, List.mem_cons_of_mem _ hright, hfirst.trans hnarrows⟩

/-- What holds of all calls of a unification that was started with `a` and `b`. -/
structure Call.Sound (U : List Ty) (a b : Ty) (c : Call) : Prop where
  ready : Ready U (U.length + 1) c.run.subst c.left c.right
  left : Reached a b c.run c.left
  right : Reached a b c.run c.right

theorem Call.sound_start (hs : r.subst.Acyclic) (a b : Ty) :
    Call.Sound (parts r.subst a b) a b ⟨a, b, r⟩ where
  ready := by
    rw [length_parts]
    exact ready_parts hs a b
  left := fun _ hw => Subst.mem_openVars.mpr (.inl hw)
  right := fun _ hw => Subst.mem_openVars.mpr (.inr hw)

/-- A call is for two arguments of terms that are found by searching. -/
theorem Calls.found {c c' : Call} (h : Calls c c') (hs : c.run.subst.Acyclic) :
    ∃ name ss ts, (c.run.find c.left).1 = .con name ss ∧
      ((c.run.find c.left).2.find c.right).1 = .con name ts ∧
      Comes ss ts ((c.run.find c.left).2.find c.right).2 c' := by
  cases h with
  | @intro x y r r₁ r₂ name ss ts c' hx hy _ hcomes =>
    have hs₁ := (find_compressed hs x).acyclic
    have hx := (finds_iff hs).mp hx
    simp only at hs₁ ⊢
    rw [← hx] at hs₁ ⊢
    rw [← (finds_iff hs₁).mp hy]
    exact ⟨name, ss, ts, rfl, rfl, hcomes⟩

/-- An argument is smaller than what it is an argument of, once both are resolved. -/
theorem size_apply_lt {x y : Ty} {name : String} {args : List Ty}
    (hx : r.subst.apply x = r.subst.apply (.con name args)) (hy : y ∈ args) :
    (r.subst.apply y).size < (r.subst.apply x).size := by
  rw [hx, Subst.apply_con]
  exact Ty.size_lt_of_mem (List.mem_map_of_mem hy)

/-- **Along a call the measure decreases.** -/
theorem Call.Sound.step {c c' : Call} (h : c.Sound U a b) (hcall : Calls c c') :
    c'.Sound U a b ∧ Prod.Lex (· < ·) (· < ·) (c'.measure a b) (c.measure a b) := by
  have hs := h.ready.acyclic
  obtain ⟨name, ss, ts, hleft, hright, hcomes⟩ := hcall.found hs
  obtain ⟨hready, -, -⟩ := h.ready.find
  obtain ⟨hc, hl, hr⟩ := Reached.find hs h.left h.right
  obtain ⟨happlyl, happlyr⟩ := apply_find hs c.left c.right
  rw [hleft] at hready hl happlyl
  rw [hright] at hready hr happlyr
  obtain ⟨hready', hmeml, hmemr, hn⟩ := hcomes.spec hready.args hl.arg hr.arg
  refine ⟨⟨hready'.deepen (Nat.le_succ _), hn.reached _ (hl.arg _ hmeml),
    hn.reached _ (hr.arg _ hmemr)⟩, Prod.lex_def.mpr ?_⟩
  rcases ((Narrows.of_compressed hc).trans hn).fewer with hcomp | hlt
  · -- no variable was bound, and types are resolved as before
    refine .inr ⟨congrArg Finset.card hcomp.openVars_eq, ?_⟩
    have hltl := size_apply_lt happlyl.symm hmeml
    have hltr := size_apply_lt happlyr.symm hmemr
    simp only [measure, hcomp.apply_eq]
    omega
  · exact .inl hlt

theorem Call.Sound.calls {c c' : Call} (h : c.Sound U a b) (hcalls : ReflTransGen Calls c c') :
    c'.Sound U a b := by
  induction hcalls with
  | refl => exact h
  | tail _ hcall ih => exact (ih.step hcall).1

/-- No chain of calls is infinite. -/
theorem Call.Sound.acc {c : Call} (h : c.Sound U a b) : Acc (fun c' c => Calls c c') c := by
  have hwf := WellFounded.prod_lex Nat.lt_wfRel.wf Nat.lt_wfRel.wf
  induction hm : c.measure a b using hwf.induction generalizing c with
  | _ m ih =>
    refine ⟨c, fun c' hcall => ?_⟩
    obtain ⟨h', hlt⟩ := h.step hcall
    exact ih _ (hm ▸ hlt) h' rfl

end Run

/-- **Unification and all that it is made of terminate.**  Under bindings by which no variable
reaches itself, searching, resolving, the occurs check and unification come to their ends, with the
outcomes of the functions and no others.  No chain of calls is infinite: along every call that
unification makes, at whatever depth, the number of unbound variables to which bindings lead from
the two types at the start decreases, or it stays the same and the size of the two types decreases,
once they are resolved. -/
theorem unification_terminates {r : Run} (hs : r.subst.Acyclic) (a b : Ty) :
    (∀ t found, r.Finds t found ↔ found = r.find t) ∧
      (∀ t u, r.subst.LeadsTo t u ↔ u = r.subst.apply t) ∧
      (∀ id t depth, (r.subst.apply t).height < depth →
        ∀ out, Run.Searches id t r out ↔ out = r.occurs id depth t) ∧
      (∀ depth, r.subst.constructors + a.constructors + b.constructors < depth →
        ∀ out, Run.Unifies a b r out ↔ out = Run.unifyWithin depth a b r) ∧
      Acc (fun c' c => Run.Calls c c') ⟨a, b, r⟩ ∧
      ∀ c, ReflTransGen Run.Calls ⟨a, b, r⟩ c →
        (∀ w, w ∈ c.run.subst.openVars a b ↔ c.run.subst[w]? = none ∧
          ∃ v ∈ a.ids ++ b.ids, ReflTransGen c.run.subst.Step v w) ∧
        ∀ c', Run.Calls c c' →
          Prod.Lex (· < ·) (· < ·) (c'.measure a b) (c.measure a b) := by
  have hstart := Run.Call.sound_start hs a b
  refine ⟨fun t found => Run.finds_iff hs, fun t u => hs.leadsTo_iff,
    fun id t depth hheight => (Run.searches_iff id depth t r hs hheight).2,
    fun depth hdepth => Run.unifies_iff depth a b r ((ready_parts hs a b).deepen hdepth),
    hstart.acc, fun c hcalls => ?_⟩
  have hc := hstart.calls hcalls
  exact ⟨fun w => hc.ready.acyclic.mem_openVars_iff, fun c' hcall => (hc.step hcall).2⟩

/-- Two variables are bound to terms whose first arguments are unified by a new binding.  By then
the second arguments are larger together than the whole terms were, but a variable is gone. -/
theorem unification_terminates_growing :
    let big := Ty.product [.int, .int, .int, .int, .int]
    let pair := Ty.arrow (.var ⟨0, none⟩) (.var ⟨0, none⟩)
    let s := Subst.ofList [(2, .product [.var ⟨0, none⟩, pair]),
      (3, .product [big, .var ⟨1, none⟩])]
    let a : Ty := .var ⟨2, none⟩
    let b : Ty := .var ⟨3, none⟩
    let c : Run.Call := ⟨a, b, ⟨s, []⟩⟩
    s.Acyclic ∧ ∃ c', Run.Calls c c' ∧ c.measure a b = (2, 13) ∧ c'.measure a b = (1, 14) ∧
      Prod.Lex (· < ·) (· < ·) (c'.measure a b) (c.measure a b) ∧
      Acc (fun c' c => Run.Calls c c') c := by
  intro big pair s a b c
  have hs : s.Acyclic := Subst.acyclic_ofList (by decide)
  have hleft : s.Chain a [2] (.product [.var ⟨0, none⟩, pair]) := .bound (by decide +kernel) .con
  have hright : s.Chain b [3] (.product [big, .var ⟨1, none⟩]) := .bound (by decide +kernel) .con
  have hint : ∀ r, Run.Searches 0 .int r (false, r) := fun r => .con (.intro .con) .nil
  have hbig : ∀ r, Run.Searches 0 big r (false, r) := fun r => .con (.intro .con)
    (.next (hint r) (.next (hint r) (.next (hint r) (.next (hint r) (.next (hint r) .nil)))))
  -- unifying the first arguments binds the variable to the big product
  have hfirst : Run.Unifies (.var ⟨0, none⟩) big c.run (.ok (), c.run.write 0 big) :=
    .intro (.intro (.unbound (by decide +kernel))) (.intro .con) (.left (.ok (hbig _)))
  -- the second arguments are unified after that, in the larger state
  have hcall : Run.Calls c ⟨pair, .var ⟨1, none⟩, c.run.write 0 big⟩ :=
    .intro (.intro hleft) (.intro hright) rfl (.later hfirst .here)
  obtain ⟨-, -, -, -, hacc, hdescends⟩ := unification_terminates (r := c.run) hs a b
  obtain ⟨-, hdescends⟩ := hdescends c .refl
  exact ⟨hs, _, hcall, by decide +kernel, by decide +kernel, hdescends _ hcall, hacc⟩

end LetTyping
