import LetTyping.Proofs.MostGeneral

/-!
# Unification without bounds

Searching, the occurs check and unification are functions with bounds on how far they go, and a
bound that is reached gives an answer like any other.  Here the same steps are the rules of
relations that have no bounds: an outcome is one of a computation that comes to its end by itself.

Where no variable reaches itself through bindings, every such computation comes to an end, with the
outcome of the function and with no other.  So the bounds are never what decides.

## Main definitions

* `Subst.Chain`, `Run.Finds` — following bindings to the term that a type stands for.
* `Run.AnyOf`, `Run.Searches` — the occurs check.
* `Run.Ties` — binding a variable.
* `Run.AllOf`, `Run.Meets`, `Run.Unifies` — unification.
* `Subst.Equates` — making two types equal, or saying why that is impossible.

## Main results

* `Run.finds_iff` — searching comes to its end.
* `Run.searches_iff` — the occurs check comes to its end, although it shortens chains on its way.
* `Run.unifies_iff` — **unification comes to its end.**
* `Subst.equates_iff` — so does what is said about types that cannot be unified.
-/

namespace LetTyping

/-! ### Chains of bindings -/

namespace Subst

variable {s : Subst}

/-- Following bindings from a type as long as it is a bound variable comes to an end.  The variables
passed and the type at the end are given. -/
inductive Chain (s : Subst) : Ty → List Nat → Ty → Prop
  | con {name : String} {args : List Ty} : Chain s (.con name args) [] (.con name args)
  | unbound {v : TVar} : s[v.id]? = none → Chain s (.var v) [] (.var v)
  | bound {v : TVar} {t last : Ty} {path : List Nat} : s[v.id]? = some t → Chain s t path last →
      Chain s (.var v) (v.id :: path) last

theorem Acyclic.chain_iff (hs : s.Acyclic) {t last : Ty} {path : List Nat} :
    s.Chain t path last ↔ path = s.path t ∧ last = s.root t := by
  induction t using hs.induction generalizing path with
  | unbound v hv =>
    rw [path_of_unbound hv, root_of_unbound hv]
    constructor
    · intro h
      cases h with
      | unbound _ => exact ⟨rfl, rfl⟩
      | bound hb _ =>
        rw [hv] at hb
        cases hb
    · rintro ⟨rfl, rfl⟩
      exact .unbound hv
  | bound v t hv ih =>
    rw [hs.path_of_bound hv, hs.root_of_bound hv]
    constructor
    · intro h
      cases h with
      | unbound hb =>
        rw [hv] at hb
        cases hb
      | bound hb hchain =>
        obtain rfl := Option.some.inj (hv.symm.trans hb)
        obtain ⟨rfl, rfl⟩ := ih.mp hchain
        exact ⟨rfl, rfl⟩
    · rintro ⟨rfl, rfl⟩
      exact .bound hv (ih.mpr ⟨rfl, rfl⟩)
  | con name args _ =>
    rw [path_con, root_con]
    constructor
    · intro h
      cases h
      exact ⟨rfl, rfl⟩
    · rintro ⟨rfl, rfl⟩
      exact .con

end Subst

namespace Run

variable {U : List Ty} {depth : Nat} {r : Run}

/-- The search for the term that a type stands for comes to an end. -/
inductive Finds (r : Run) (t : Ty) : Ty × Run → Prop
  | intro {path : List Nat} {last : Ty} : r.subst.Chain t path last →
      Finds r t (last, path.dropLast.foldl (fun r id => r.write id last) r)

/-- **Searching comes to its end.** -/
theorem finds_iff (hs : r.subst.Acyclic) {t : Ty} {found : Ty × Run} :
    r.Finds t found ↔ found = r.find t := by
  rw [find_eq]
  constructor
  · rintro ⟨hchain⟩
    obtain ⟨rfl, rfl⟩ := hs.chain_iff.mp hchain
    rfl
  · rintro rfl
    exact .intro (hs.chain_iff.mpr ⟨rfl, rfl⟩)

/-! ### The occurs check -/

/-- Testing types one after another comes to an end, with the first success or with the last
type. -/
inductive AnyOf (test : Ty → Run → Bool × Run → Prop) : List Ty → Run → Bool × Run → Prop
  | nil {r : Run} : AnyOf test [] r (false, r)
  | found {t : Ty} {ts : List Ty} {r r' : Run} : test t r (true, r') →
      AnyOf test (t :: ts) r (true, r')
  | next {t : Ty} {ts : List Ty} {r r' : Run} {out : Bool × Run} : test t r (false, r') →
      AnyOf test ts r' out → AnyOf test (t :: ts) r out

/-- The occurs check comes to an end. -/
inductive Searches (id : Nat) : Ty → Run → Bool × Run → Prop
  | var {t : Ty} {v : TVar} {r r' : Run} : r.Finds t (.var v, r') →
      Searches id t r (v.id = id, r')
  | con {t : Ty} {name : String} {args : List Ty} {r r' : Run} {out : Bool × Run} :
      r.Finds t (.con name args, r') → AnyOf (Searches id) args r' out → Searches id t r out

/-- If testing each type comes to its end, then so does testing them one after another. -/
theorem anyOf_iff {tests : Ty → Run → Bool × Run → Prop} {test : Ty → Run → Bool × Run}
    {ts : List Ty} {r' : Run} (hc : Compressed r r')
    (htest : ∀ t ∈ ts, ∀ r', Compressed r r' →
      Compressed r (test t r').2 ∧ ∀ out, tests t r' out ↔ out = test t r') :
    Compressed r (anyOf test ts r').2 ∧ ∀ out, AnyOf tests ts r' out ↔ out = anyOf test ts r' := by
  induction ts generalizing r' with
  | nil =>
    refine ⟨hc, fun out => ⟨fun h => ?_, ?_⟩⟩
    · cases h
      rfl
    · rintro rfl
      exact .nil
  | cons t ts ih =>
    rw [List.forall_mem_cons] at htest
    obtain ⟨hc₁, hiff⟩ := htest.1 r' hc
    rw [anyOf]
    rcases htr : test t r' with ⟨_ | _, r₁⟩ <;> rw [htr] at hc₁ hiff
    · obtain ⟨hc₂, hrest⟩ := ih hc₁ htest.2
      refine ⟨hc₂, fun out => ⟨fun h => ?_, fun h => .next ((hiff _).mpr rfl) ((hrest out).mpr h)⟩⟩
      cases h with
      | found hfound => cases (hiff _).mp hfound
      | next hnext hrest' =>
        cases (hiff _).mp hnext
        exact (hrest out).mp hrest'
    · refine ⟨hc₁, fun out => ⟨fun h => ?_, ?_⟩⟩
      · cases h with
        | found hfound => exact (hiff _).mp hfound
        | next hnext _ => cases (hiff _).mp hnext
      · rintro rfl
        exact .found ((hiff _).mpr rfl)

/-- **The occurs check comes to its end**, and on its way it only shortens chains. -/
theorem searches_iff (id : Nat) : ∀ (depth : Nat) (t : Ty) (r : Run), r.subst.Acyclic →
    (r.subst.apply t).height < depth →
    Compressed r (r.occurs id depth t).2 ∧
      ∀ out, Searches id t r out ↔ out = r.occurs id depth t := by
  intro depth
  induction depth with
  | zero => intro t r _ h; exact absurd h (by omega)
  | succ depth ih =>
    intro t r hs hheight
    have hc := find_compressed hs t
    -- the term that the search ends at is resolved like the type, so it is as high
    have happly : r.subst.apply (r.find t).1 = r.subst.apply t := hs.apply_root t
    rw [← happly] at hheight
    rw [occurs]
    rcases hfind : r.find t with ⟨v | ⟨name, args⟩, r₁⟩ <;> rw [hfind] at hc hheight
    · refine ⟨hc, fun out => ⟨fun h => ?_, ?_⟩⟩
      · cases h with
        | var hv =>
          cases ((finds_iff hs).mp hv).trans hfind
          rfl
        | con hcon _ => cases ((finds_iff hs).mp hcon).trans hfind
      · rintro rfl
        exact .var ((finds_iff hs).mpr hfind.symm)
    · simp only [Subst.apply_con, Term.height_con] at hheight
      -- arguments are less high, also after other searches have shortened chains
      have hbelow : ∀ a ∈ args, ∀ r', Compressed r r' → Compressed r (r'.occurs id depth a).2 ∧
          ∀ out, Searches id a r' out ↔ out = r'.occurs id depth a := fun a ha r' h => by
        have hle := Term.height_le_heightList (List.mem_map_of_mem (f := r.subst.apply) ha)
        obtain ⟨h', hiff⟩ := ih a r' h.acyclic (by rw [h.apply_eq]; omega)
        exact ⟨h.trans h', hiff⟩
      obtain ⟨hc', hargs⟩ := anyOf_iff hc hbelow
      refine ⟨hc', fun out => ⟨fun h => ?_, fun h =>
        .con ((finds_iff hs).mpr hfind.symm) ((hargs out).mpr h)⟩⟩
      cases h with
      | var hv => cases ((finds_iff hs).mp hv).trans hfind
      | con hcon hout =>
        cases ((finds_iff hs).mp hcon).trans hfind
        exact (hargs out).mp hout

/-! ### Unification -/

/-- Binding a variable comes to an end.  If the variable occurs in the type, it is the resolved type
that is reported. -/
inductive Ties (v : TVar) (t : Ty) (r : Run) : Except Clash Unit × Run → Prop
  | infinite {u : Ty} {r' : Run} : Searches v.id t r (true, r') → r'.subst.LeadsTo t u →
      Ties v t r (.error (.infinite v u), r')
  | ok {r' : Run} : Searches v.id t r (false, r') → Ties v t r (.ok (), r'.write v.id t)

theorem ties_iff (hs : r.subst.Acyclic) {t : Ty} (hheight : (r.subst.apply t).height < depth)
    (v : TVar) (out : Except Clash Unit × Run) :
    Ties v t r out ↔ out = r.bindVar depth v t := by
  obtain ⟨hc, hiff⟩ := searches_iff v.id depth t r hs hheight
  rw [bindVar]
  rcases hres : r.occurs v.id depth t with ⟨_ | _, r₁⟩ <;> rw [hres] at hc hiff
  · constructor
    · intro h
      cases h with
      | infinite hsearch _ => cases (hiff _).mp hsearch
      | ok hsearch =>
        cases (hiff _).mp hsearch
        rfl
    · rintro rfl
      exact .ok ((hiff _).mpr rfl)
  · constructor
    · intro h
      cases h with
      | infinite hsearch hleads =>
        cases (hiff _).mp hsearch
        rw [hc.acyclic.leadsTo_iff.mp hleads]
      | ok hsearch => cases (hiff _).mp hsearch
    · rintro rfl
      exact .infinite ((hiff _).mpr rfl) (hc.acyclic.leadsTo_iff.mpr rfl)

/-- Unifying types pairwise comes to an end, with the first clash or with the last two types. -/
inductive AllOf (unifies : Ty → Ty → Run → Except Clash Unit × Run → Prop) :
    List Ty → List Ty → Run → Except Clash Unit × Run → Prop
  | nil {r : Run} : AllOf unifies [] [] r (.ok (), r)
  | clash {a b : Ty} {as bs : List Ty} {r r' : Run} {clash : Clash} :
      unifies a b r (.error clash, r') → AllOf unifies (a :: as) (b :: bs) r (.error clash, r')
  | next {a b : Ty} {as bs : List Ty} {r r' : Run} {out : Except Clash Unit × Run} :
      unifies a b r (.ok (), r') → AllOf unifies as bs r' out →
      AllOf unifies (a :: as) (b :: bs) r out

/-- What is done with the terms that two types stand for comes to an end. -/
inductive Meets (unifies : Ty → Ty → Run → Except Clash Unit × Run → Prop) :
    Ty → Ty → Run → Except Clash Unit × Run → Prop
  | same {v w : TVar} {r : Run} : v.id = w.id → Meets unifies (.var v) (.var w) r (.ok (), r)
  | join {v w : TVar} {r : Run} {out : Except Clash Unit × Run} : v.id ≠ w.id →
      Ties w (.var v) r out → Meets unifies (.var v) (.var w) r out
  | left {v : TVar} {n : String} {ts : List Ty} {r : Run} {out : Except Clash Unit × Run} :
      Ties v (.con n ts) r out → Meets unifies (.var v) (.con n ts) r out
  | right {w : TVar} {n : String} {ts : List Ty} {r : Run} {out : Except Clash Unit × Run} :
      Ties w (.con n ts) r out → Meets unifies (.con n ts) (.var w) r out
  | mismatch {m n : String} {ss ts : List Ty} {r : Run} : ¬(m = n ∧ ss.length = ts.length) →
      Meets unifies (.con m ss) (.con n ts) r (.error .mismatch, r)
  | args {n : String} {ss ts : List Ty} {r : Run} {out : Except Clash Unit × Run} :
      ss.length = ts.length → AllOf unifies ss ts r out →
      Meets unifies (.con n ss) (.con n ts) r out

/-- Unification comes to an end. -/
inductive Unifies : Ty → Ty → Run → Except Clash Unit × Run → Prop
  | intro {a b a' b' : Ty} {r r₁ r₂ : Run} {out : Except Clash Unit × Run} :
      r.Finds a (a', r₁) → r₁.Finds b (b', r₂) → Meets Unifies a' b' r₂ out → Unifies a b r out

/-- If unifying two types comes to its end, then so does unifying types pairwise. -/
theorem allOf_iff
    (ih : ∀ (a b : Ty) (r : Run), Ready U depth r.subst a b →
      ∀ out, Unifies a b r out ↔ out = unifyWithin depth a b r)
    {as bs : List Ty} {r : Run} (hlen : as.length = bs.length) (h : ReadyAll U depth r.subst as bs)
    (out : Except Clash Unit × Run) :
    AllOf Unifies as bs r out ↔ out = unifyAll (unifyWithin depth) as bs r := by
  induction as generalizing bs r with
  | nil =>
    obtain rfl : bs = [] := List.length_eq_zero_iff.mp hlen.symm
    constructor
    · intro h
      cases h
      rfl
    · rintro rfl
      exact .nil
  | cons a as ihs =>
    cases bs with
    | nil => cases hlen
    | cons b bs =>
      have hhead := ih a b r h.head
      have htail := h.tail_of_ok
      rw [unifyAll]
      rcases hres : unifyWithin depth a b r with ⟨clash | _, r₁⟩ <;> rw [hres] at hhead htail
      · constructor
        · intro h
          cases h with
          | clash hclash => exact (hhead _).mp hclash
          | next hnext _ => cases (hhead _).mp hnext
        · rintro rfl
          exact .clash ((hhead _).mpr rfl)
      -- the first pair is made equal, so the others are ready in the run that this leaves
      · have hrest := ihs (Nat.succ.inj hlen) (htail rfl)
        refine ⟨fun h => ?_, fun h => .next ((hhead _).mpr rfl) (hrest.mpr h)⟩
        cases h with
        | clash hclash => cases (hhead _).mp hclash
        | next hnext hout =>
          cases (hhead _).mp hnext
          exact hrest.mp hout

/-- If unification comes to its end one level below, then so does what is done with two terms that
stand for themselves. -/
theorem meets_iff
    (ih : ∀ (a b : Ty) (r : Run), Ready U depth r.subst a b →
      ∀ out, Unifies a b r out ↔ out = unifyWithin depth a b r)
    {a b : Ty} (h : Ready U (depth + 1) r.subst a b) (out : Except Clash Unit × Run) :
    Meets Unifies a b r out ↔ out = meet depth a b r := by
  have hleft := ties_iff h.acyclic (h.leftWithin.height_lt h.acyclic h.built)
  have hright := ties_iff h.acyclic (h.rightWithin.height_lt h.acyclic h.built)
  cases a with
  | var v =>
    cases b with
    | var w =>
      rw [meet]
      split
      · next heq =>
        constructor
        · intro h
          cases h with
          | same _ => rfl
          | join hne _ => exact absurd heq hne
        · rintro rfl
          exact .same heq
      · next hne =>
        refine ⟨fun h => ?_, fun h => .join hne ((hleft _ _).mpr h)⟩
        cases h with
        | same heq => exact absurd heq hne
        | join _ hties => exact (hleft _ _).mp hties
    | con n ts =>
      refine ⟨fun h => ?_, fun h => .left ((hright _ _).mpr h)⟩
      cases h with
      | left hties => exact (hright _ _).mp hties
  | con m ss =>
    cases b with
    | var w =>
      refine ⟨fun h => ?_, fun h => .right ((hleft _ _).mpr h)⟩
      cases h with
      | right hties => exact (hleft _ _).mp hties
    | con n ts =>
      rw [meet]
      split
      · next heq =>
        obtain ⟨rfl, hlen⟩ := heq
        have hargs := allOf_iff ih hlen h.args out
        refine ⟨fun h => ?_, fun h => .args hlen (hargs.mpr h)⟩
        cases h with
        | mismatch hne => exact absurd ⟨rfl, hlen⟩ hne
        | args _ hout => exact hargs.mp hout
      · next hne =>
        constructor
        · intro h
          cases h with
          | mismatch _ => rfl
          | args hlen _ => exact absurd ⟨rfl, hlen⟩ hne
        · rintro rfl
          exact .mismatch hne

/-- **Unification comes to its end.** -/
theorem unifies_iff : ∀ (depth : Nat) (a b : Ty) (r : Run), Ready U depth r.subst a b →
    ∀ out, Unifies a b r out ↔ out = unifyWithin depth a b r := by
  intro depth
  induction depth with
  | zero =>
    intro a b r h
    exact absurd (h.leftWithin.height_lt h.acyclic h.built) (by omega)
  | succ depth ih =>
    intro a b r h out
    have hc := find_compressed h.acyclic a
    -- what the two searches find is ready like the types themselves
    have hmeets := meets_iff ih h.find.1 out
    rw [unifyWithin_succ]
    constructor
    · rintro ⟨hleft, hright, hout⟩
      cases (finds_iff h.acyclic).mp hleft
      cases (finds_iff hc.acyclic).mp hright
      exact hmeets.mp hout
    · intro hout
      exact .intro ((finds_iff h.acyclic).mpr rfl) ((finds_iff hc.acyclic).mpr rfl)
        (hmeets.mpr hout)

end Run

/-! ### Making types equal -/

namespace Subst

/-- Making two types equal comes to an end.  If that is impossible, all the writes are taken back;
two types that do not fit are resolved as wholes, to be shown. -/
inductive Equates (s : Subst) (a b : Ty) : Except TypeCause Unit × Subst → Prop
  | ok {r : Run} : Run.Unifies a b ⟨s, []⟩ (.ok (), r) → Equates s a b (.ok (), r.subst)
  | infinite {v : TVar} {t : Ty} {r : Run} :
      Run.Unifies a b ⟨s, []⟩ (.error (.infinite v t), r) →
      Equates s a b
        (.error (.infinite (Ty.texts (.var v) t).1 (Ty.texts (.var v) t).2 none), r.undo)
  | mismatch {a' b' : Ty} {r : Run} : Run.Unifies a b ⟨s, []⟩ (.error .mismatch, r) →
      r.undo.LeadsTo a a' → r.undo.LeadsTo b b' →
      Equates s a b (.error (.mismatch (Ty.texts a' b').1 (Ty.texts a' b').2 none), r.undo)

/-- **Making two types equal comes to its end.** -/
theorem equates_iff {s : Subst} (hs : s.Acyclic) {a b : Ty} {out : Except TypeCause Unit × Subst} :
    s.Equates a b out ↔ out = unify s a b := by
  have hiff := Run.unifies_iff _ a b ⟨s, []⟩ (ready_parts hs a b)
  have hundo := Run.undo_unifyWithin (s.constructors + a.constructors + b.constructors + 1) a b s
  rw [unify]
  rcases hres : Run.unifyWithin _ a b ⟨s, []⟩ with ⟨(_ | ⟨v, t⟩) | _, r⟩ <;>
    rw [hres] at hiff hundo
  · -- the two types are shown as they are resolved without the writes
    have hleads : ∀ t u, r.undo.LeadsTo t u ↔ u = r.undo.apply t := fun t u =>
      (show r.undo.Acyclic from hundo ▸ hs).leadsTo_iff
    constructor
    · intro h
      cases h with
      | ok hrun => cases (hiff _).mp hrun
      | infinite hrun => cases (hiff _).mp hrun
      | mismatch hrun ha hb =>
        cases (hiff _).mp hrun
        rw [(hleads _ _).mp ha, (hleads _ _).mp hb]
        rfl
    · rintro rfl
      exact .mismatch ((hiff _).mpr rfl) ((hleads _ _).mpr rfl) ((hleads _ _).mpr rfl)
  · constructor
    · intro h
      cases h with
      | ok hrun => cases (hiff _).mp hrun
      | infinite hrun =>
        cases (hiff _).mp hrun
        rfl
      | mismatch hrun _ _ => cases (hiff _).mp hrun
    · rintro rfl
      exact .infinite ((hiff _).mpr rfl)
  · constructor
    · intro h
      cases h with
      | ok hrun =>
        cases (hiff _).mp hrun
        rfl
      | infinite hrun => cases (hiff _).mp hrun
      | mismatch hrun _ _ => cases (hiff _).mp hrun
    · rintro rfl
      exact .ok ((hiff _).mpr rfl)

end Subst

end LetTyping
