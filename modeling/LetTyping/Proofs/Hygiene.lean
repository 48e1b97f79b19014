import Mathlib
import LetTyping.Proofs.Names

/-!
# Parameters can be renamed

The uses of a name travel upward under that name, until a function binds them as a parameter.  So
another name for the parameter, with which its uses travel instead, makes no difference above the
function; what is found below differs in the name alone.

## Main definitions

* `Table.mapKeys`, `Typing.renameUses` — other names for the uses of names.
* `Tree.renameUses` — another name for the free uses of a name.
* `Echo` — two computations do the same, up to what their problems say.
* `SameUpToParameter` — two problems differ at most in the parameter that was being checked.

## Main results

* `resolveNames_renameUses`, `absorb_renameUses`, … — the rules work alike under other names.
* `Tree.result_renameUses` — the same typing is found, with other names for the uses.
* `Tree.Echoed.set` — a node that is replaced makes no difference above it.
* `infer_renameParam` — **a parameter can be renamed.**
-/

namespace LetTyping

/-! ### Tables with other names -/

namespace Table

variable {β γ : Type} {σ : String → String}

/-- Changes every name. -/
def mapKeys (σ : String → String) (t : Table β) : Table β := t.map fun e => (σ e.1, e.2)

@[simp] theorem mapKeys_nil : mapKeys σ ([] : Table β) = [] := rfl

@[simp] theorem mapKeys_cons (name : String) (b : β) (t : Table β) :
    mapKeys σ ((name, b) :: t) = (σ name, b) :: mapKeys σ t := rfl

theorem get?_mapKeys (hσ : σ.Injective) (t : Table β) (name : String) :
    get? (mapKeys σ t) (σ name) = get? t name := by
  induction t with
  | nil => rfl
  | cons e t ih =>
    obtain ⟨n, b⟩ := e
    rw [mapKeys_cons, get?_cons, get?_cons, ih]
    exact if_congr hσ.eq_iff rfl rfl

theorem alter_mapKeys (hσ : σ.Injective) (t : Table β) (name : String) (f : Option β → β) :
    alter (mapKeys σ t) (σ name) f = mapKeys σ (alter t name f) := by
  induction t with
  | nil => rfl
  | cons e t ih =>
    obtain ⟨n, b⟩ := e
    rw [mapKeys_cons, alter, alter, ih]
    by_cases h : n = name
    · rw [if_pos h, if_pos (congrArg σ h), mapKeys_cons]
    · rw [if_neg h, if_neg (hσ.ne h), mapKeys_cons]

theorem erase_mapKeys (hσ : σ.Injective) (t : Table β) (name : String) :
    erase (mapKeys σ t) (σ name) = mapKeys σ (erase t name) := by
  rw [erase, erase, mapKeys, mapKeys, List.filter_map]
  refine congrArg _ (List.filter_congr fun e _ => ?_)
  simp [hσ.eq_iff]

theorem mapKeys_mapValues (f : β → γ) (t : Table β) :
    mapKeys σ (mapValues f t) = mapValues f (mapKeys σ t) := by
  rw [mapKeys, mapKeys, mapValues, mapValues, List.map_map, List.map_map]
  rfl

theorem mapKeys_eq_self {t : Table β} (h : ∀ x ∈ keys t, σ x = x) : mapKeys σ t = t := by
  rw [keys, List.forall_mem_map] at h
  refine (List.map_congr_left fun e he => ?_).trans (List.map_id t)
  rw [h e he]
  rfl

/-- A name is declared under the new names as it is under the old ones, if declared names are not
changed. -/
theorem get?_of_fixed (hσ : σ.Injective) {t : Table β} (ht : ∀ x ∈ keys t, σ x = x)
    (name : String) : get? t (σ name) = get? t name := by
  rw [← get?_mapKeys hσ t name, mapKeys_eq_self ht]

end Table

namespace Uses

variable {τ υ : Type} {σ : String → String}

theorem of_mapKeys (hσ : σ.Injective) (c : Uses τ) (name : String) :
    Uses.of (Table.mapKeys σ c) (σ name) = Uses.of c name := by
  rw [Uses.of, Uses.of, Table.get?_mapKeys hσ]

theorem addAll_mapKeys (hσ : σ.Injective) (c : Uses τ) (name : String) (ts : List τ) :
    addAll (Table.mapKeys σ c) (σ name) ts = Table.mapKeys σ (addAll c name ts) :=
  Table.alter_mapKeys hσ c name _

theorem union_mapKeys (hσ : σ.Injective) (c d : Uses τ) :
    union (Table.mapKeys σ c) (Table.mapKeys σ d) = Table.mapKeys σ (union c d) := by
  induction d generalizing c with
  | nil => rfl
  | cons e d ih =>
    change union (addAll (Table.mapKeys σ c) (σ e.1) e.2) (Table.mapKeys σ d) = _
    rw [addAll_mapKeys hσ, ih]
    rfl

theorem passOut_mapKeys (hσ : σ.Injective) (c : Uses τ) (name : String) (ts : List τ) :
    passOut (Table.mapKeys σ c) (σ name) ts = Table.mapKeys σ (passOut c name ts) := by
  induction ts generalizing c with
  | nil => rfl
  | cons t ts ih =>
    change passOut (addAll (Table.mapKeys σ c) (σ name) [t]) (σ name) ts = _
    rw [addAll_mapKeys hσ, ih]
    rfl

theorem map_mapKeys (g : τ → υ) (c : Uses τ) :
    map g (Table.mapKeys σ c) = Table.mapKeys σ (map g c) :=
  (Table.mapKeys_mapValues _ c).symm

end Uses

/-! ### Typings with other names for uses -/

namespace Typing

variable {σ : String → String}

mutual

/-- The typing with other names for all the uses of names, also in what it declares.  Declared names
stay as they are. -/
def renameUses (σ : String → String) : Typing → Typing
  | ⟨ty, context, defined⟩ => ⟨ty, Table.mapKeys σ context, renameUsesDefined σ defined⟩
  termination_by structural T => T

/-- The declared names, with other names for the uses in their typings. -/
def renameUsesDefined (σ : String → String) : List (String × Typing) → List (String × Typing)
  | [] => []
  | (name, T) :: rest => (name, renameUses σ T) :: renameUsesDefined σ rest
  termination_by structural d => d

end

theorem renameUsesDefined_eq (d : Defined) :
    renameUsesDefined σ d = Table.mapValues (renameUses σ) d := by
  induction d with
  | nil => rfl
  | cons e d ih => rw [renameUsesDefined, ih, Table.mapValues_cons]

@[simp] theorem renameUses_ty (T : Typing) : (T.renameUses σ).ty = T.ty := by
  cases T
  rfl

@[simp] theorem renameUses_context (T : Typing) :
    (T.renameUses σ).context = Table.mapKeys σ T.context := by
  cases T
  rfl

@[simp] theorem renameUses_defined (T : Typing) :
    (T.renameUses σ).defined = Table.mapValues (renameUses σ) T.defined := by
  cases T
  exact renameUsesDefined_eq _

theorem renameUses_mk (ty : Ty) (context : Context) (defined : Defined) :
    renameUses σ ⟨ty, context, defined⟩ =
      ⟨ty, Table.mapKeys σ context, Table.mapValues (renameUses σ) defined⟩ := by
  rw [renameUses, renameUsesDefined_eq]

@[simp] theorem types_renameUses (T : Typing) : (T.renameUses σ).types = T.types := by
  induction T using Typing.induction with
  | mk ty context defined ih =>
    have hcontext : Context.types (Table.mapKeys σ context) = context.types := by
      rw [Context.types, Context.types, Table.mapKeys, List.flatMap_map]
    rw [renameUses_mk, types, types, hcontext, definedTypes_eq_flatMap, definedTypes_eq_flatMap,
      Table.mapValues, List.flatMap_map, List.flatMap_congr ih]

theorem mapTypes_renameUses (g : Ty → Ty) (T : Typing) :
    (T.renameUses σ).mapTypes g = (T.mapTypes g).renameUses σ := by
  induction T using Typing.induction with
  | mk ty context defined ih =>
    rw [renameUses_mk, mapTypes, mapTypes, renameUses_mk, Context.mapTypes_eq, Context.mapTypes_eq,
      Uses.map_mapKeys, mapDefined_eq_map, mapDefined_eq_map, Table.mapValues, Table.mapValues,
      List.map_map, List.map_map]
    refine congrArg _ (List.map_congr_left fun e he => ?_)
    rw [Function.comp_apply, Function.comp_apply, ih e he]

/-- Names that are left as they are change nothing. -/
theorem renameUses_eq_self {D : String → Prop} {T : Typing} (h : T.Named (fun x => σ x = x) D) :
    T.renameUses σ = T := by
  induction T using Typing.induction with
  | mk ty context defined ih =>
    obtain ⟨huses, hdefined⟩ := named_iff.mp h
    rw [renameUses_mk, Table.mapKeys_eq_self huses]
    refine congrArg _ ((List.map_congr_left fun e he => ?_).trans (List.map_id defined))
    rw [ih e he (hdefined e he).2]
    rfl

end Typing

/-! ### The rules -/

theorem Infer.map_apply {α β : Type} (f : α → β) (x : Infer α) (st : State) :
    (f <$> x) st = ((x st).1.map f, (x st).2) := by
  change (ExceptT.map f x) st = _
  simp only [ExceptT.map, ExceptT.mk, bind, StateT.bind]
  rcases x st with ⟨_ | _, st₁⟩ <;> rfl

/-- Two results in one state: the same, or problems that are related. -/
inductive Echoes (E : Problem → Problem → Prop) {α : Type} :
    Except Problem α × State → Except Problem α × State → Prop
  | ok {a st} : Echoes E (.ok a, st) (.ok a, st)
  | error {e e' st} : E e e' → Echoes E (.error e, st) (.error e', st)

/-- Two computations do the same, up to what their problems say. -/
def Echo (E : Problem → Problem → Prop) {α : Type} (x y : Infer α) : Prop :=
  ∀ st, Echoes E (x st) (y st)

theorem Echo.refl {E : Problem → Problem → Prop} (hE : ∀ e, E e e) {α : Type} (x : Infer α) :
    Echo E x x := by
  intro st
  obtain ⟨problem | a, st'⟩ := x st
  · exact .error (hE problem)
  · exact .ok

theorem Echo.eq {α : Type} {x y : Infer α} (h : Echo Eq x y) : x = y := by
  funext st
  have h := h st
  generalize x st = r at h ⊢
  generalize y st = r' at h ⊢
  cases h with
  | ok => rfl
  | error h => rw [h]

theorem Echo.bind {E : Problem → Problem → Prop} {α β : Type} {x y : Infer α} {f g : α → Infer β}
    (h : Echo E x y) (hfg : ∀ a, Echo E (f a) (g a)) : Echo E (x >>= f) (y >>= g) := by
  intro st
  have h := h st
  rw [Infer.bind_apply, Infer.bind_apply]
  generalize x st = r at h ⊢
  generalize y st = r' at h ⊢
  cases h with
  | ok => exact hfg _ _
  | error h => exact .error h

section Rules

variable {σ : String → String} {E : Problem → Problem → Prop}

theorem instantiate_renameUses (T : Typing) :
    instantiate (T.renameUses σ) = Typing.renameUses σ <$> instantiate T := by
  funext st
  change (((T.renameUses σ).apply st.subst).apply _, _) =
    (((T.apply st.subst).apply _).renameUses σ, _)
  simp only [Typing.apply, Typing.mapTypes_renameUses, Typing.freeVars, Typing.types_renameUses]

theorem tupleTyping_renameUses (hσ : σ.Injective) (Ts : List Typing) :
    tupleTyping (Ts.map (Typing.renameUses σ)) = (tupleTyping Ts).renameUses σ := by
  -- contexts are joined from the left, so this is stated for any context to start from
  have hfold : ∀ c : Context, (Ts.map (Typing.renameUses σ)).foldl
      (fun c T => Context.union c T.context) (Table.mapKeys σ c) =
        Table.mapKeys σ (Ts.foldl (fun c T => Context.union c T.context) c) := by
    induction Ts with
    | nil => exact fun c => rfl
    | cons T Ts ih =>
      intro c
      rw [List.map_cons, List.foldl_cons, List.foldl_cons, Typing.renameUses_context,
        Context.union_eq, Uses.union_mapKeys hσ, ih]
      rfl
  -- types have no names in them
  have htys : (Ts.map (Typing.renameUses σ)).map Typing.ty = Ts.map Typing.ty := by
    rw [List.map_map]
    exact List.map_congr_left fun T _ => T.renameUses_ty
  have hcontext := hfold []
  rw [Table.mapKeys_nil] at hcontext
  rw [tupleTyping, tupleTyping, htys, hcontext]
  rfl

theorem applyTypings_renameUses (hσ : σ.Injective) (span : Span) (fnRaw fn argRaw arg : Typing) :
    applyTypings span (fnRaw.renameUses σ) (fn.renameUses σ) (argRaw.renameUses σ)
        (arg.renameUses σ) =
      Typing.renameUses σ <$> applyTypings span fnRaw fn argRaw arg := by
  funext st
  change _ = ((applyTypings span fnRaw fn argRaw arg st).1.renameUses σ,
    (applyTypings span fnRaw fn argRaw arg st).2)
  rw [applyTypings_eq, applyTypings_eq]
  simp only [Typing.renameUses_ty, Typing.renameUses_context]
  split
  · rw [Context.union_eq, Uses.union_mapKeys hσ]
    rfl
  · rfl

/-- Types are made equal alike, whatever is said to be checked. -/
theorem equateAll_echo {span : Span} {d d' : String}
    (hE : ∀ cause : TypeCause, E ⟨cause.whileChecking d, span⟩ ⟨cause.whileChecking d', span⟩)
    (a : Ty) (bs : List Ty) : Echo E (equateAll span d a bs) (equateAll span d' a bs) := by
  induction bs with
  | nil => exact fun st => .ok
  | cons b bs ih =>
    intro st
    rw [equateAll_cons, equateAll_cons, equate_eq, equate_eq]
    rcases (unify st.subst a b).1 with cause | _
    · exact .error (hE cause)
    · exact ih _

/-- Parameters are bound alike under other names, except for what is said to be checked. -/
theorem bindParams_renameUses (hσ : σ.Injective) (span : Span) (params : List String)
    (hE : ∀ x ∈ params, ∀ cause : TypeCause, E ⟨cause.whileChecking (parameterOf x), span⟩
      ⟨cause.whileChecking (parameterOf (σ x)), span⟩) (context : Context) :
    Echo E ((fun found => (found.1, Table.mapKeys σ found.2)) <$> bindParams span params context)
      (bindParams span (params.map σ) (Table.mapKeys σ context)) := by
  induction params generalizing context with
  | nil => exact fun st => .ok
  | cons param params ih =>
    rw [List.forall_mem_cons] at hE
    intro st
    have huses : Context.uses (Table.mapKeys σ context) (σ param) = Context.uses context param :=
      Uses.of_mapKeys hσ context param
    -- the types to be unified are the same; only the text about the parameter differs
    have hequate := equateAll_echo hE.1 (.var ⟨st.count, none⟩) (context.uses param) st.next
    rw [Infer.map_apply, List.map_cons, bindParams_cons, bindParams_cons, huses,
      Table.erase_mapKeys hσ]
    generalize equateAll span (parameterOf param) _ _ _ = x at hequate ⊢
    generalize equateAll span (parameterOf (σ param)) _ _ _ = y at hequate ⊢
    cases hequate with
    | error h => exact .error h
    | @ok _ st₁ =>
      -- what is left of the context is the same up to names, since the renaming is injective
      have hrest := ih hE.2 (Table.erase context param) st₁
      rw [Infer.map_apply] at hrest
      simp only
      generalize bindParams span params (Table.erase context param) st₁ = x at hrest ⊢
      generalize bindParams span (params.map σ) _ st₁ = y at hrest ⊢
      obtain ⟨problem | ⟨ts, c⟩, st₂⟩ := x
      · cases hrest with
        | error h => exact .error h
      · cases hrest
        exact .ok

theorem fnTyping_renameUses (hσ : σ.Injective) (span : Span) (params : List String)
    (hE : ∀ x ∈ params, ∀ cause : TypeCause, E ⟨cause.whileChecking (parameterOf x), span⟩
      ⟨cause.whileChecking (parameterOf (σ x)), span⟩) (body : Typing) :
    Echo E (Typing.renameUses σ <$> fnTyping span params body)
      (fnTyping span (params.map σ) (body.renameUses σ)) := by
  have hbind := bindParams_renameUses hσ span params hE body.context
  rw [fnTyping, fnTyping, Typing.renameUses_context, Typing.renameUses_ty]
  intro st
  have hbind := hbind st
  rw [Infer.map_apply] at hbind
  rw [Infer.map_apply, Infer.bind_apply, Infer.bind_apply]
  generalize bindParams span params body.context st = x at hbind ⊢
  generalize bindParams span (params.map σ) _ st = y at hbind ⊢
  obtain ⟨problem | ⟨ts, c⟩, st₂⟩ := x
  · cases hbind with
    | error h => exact .error h
  · cases hbind
    exact .ok

/-- Names are resolved alike under other names, if declared names keep theirs. -/
theorem resolveNames_renameUses (hσ : σ.Injective) {defined : Defined}
    (hdef : ∀ x ∈ Table.keys defined, σ x = x) (span : Span) {depth : Nat} {chain : List String}
    {context out : Context} {st : State} {res : Outcome Unit Context × State}
    (hrun : ResolutionRun defined span depth chain context out st res) :
    resolveNames (Table.mapValues (Typing.renameUses σ) defined) span depth chain
        (Table.mapKeys σ context) (Table.mapKeys σ out) st =
      ((res.1.1, Table.mapKeys σ res.1.2), res.2) := by
  -- declared names keep their names, so a renamed name is looked up as before
  have hget : ∀ name, Table.get? (Table.mapValues (Typing.renameUses σ) defined) (σ name) =
      (Table.get? defined name).map (Typing.renameUses σ) := fun name => by
    rw [Table.get?_mapValues, Table.get?_of_fixed hσ hdef]
  have hfixed : ∀ {name S}, Table.get? defined name = some S → σ name = name :=
    fun h => hdef _ (Table.mem_keys_of_get? h)
  have hcopy : ∀ (S : Typing) (st : State), instantiate (S.renameUses σ) st =
      ((instantiate S st).1.renameUses σ, (instantiate S st).2) := fun S st =>
    congrFun (instantiate_renameUses S) st
  -- by the ways that a run can go; each of them is gone again under the other names
  induction hrun with
  | nil => rw [Table.mapKeys_nil, resolveNames_nil]
  | undeclared h _ ih =>
    rw [Table.mapKeys_cons, resolveNames_undeclared (by rw [hget, h]; rfl),
      Uses.passOut_mapKeys hσ, ih]
  | recursive h hrec =>
    rw [Table.mapKeys_cons, hfixed h,
      resolveNames_recursive (by rw [← hfixed h, hget, h]; rfl) hrec]
  | clash h hx heq =>
    rw [Table.mapKeys_cons, hfixed h,
      resolveNames_declared (by rw [← hfixed h, hget, h]; rfl) hx, hcopy, Typing.renameUses_ty, heq]
  | fail h hx heq _ ih =>
    rw [Table.mapKeys_cons, hfixed h,
      resolveNames_declared (by rw [← hfixed h, hget, h]; rfl) hx, hcopy, Typing.renameUses_ty, heq,
      Typing.renameUses_context]
    simp only [ih]
  | declared h hx heq _ _ ih ihrest =>
    rw [Table.mapKeys_cons, hfixed h,
      resolveNames_declared (by rw [← hfixed h, hget, h]; rfl) hx, hcopy, Typing.renameUses_ty, heq,
      Typing.renameUses_context]
    simp only [ih, ihrest]

/-- A statement is taken in alike under other names, if declared names keep theirs. -/
theorem absorb_renameUses (hσ : σ.Injective) (sofar : Typing) (span : Span) (stmt : Typing)
    (hsofar : ∀ x ∈ Table.keys sofar.defined, σ x = x)
    (hstmt : ∀ x ∈ Table.keys stmt.defined, σ x = x) :
    absorb (sofar.renameUses σ) span (stmt.renameUses σ) =
      Typing.renameUses σ <$> absorb sofar span stmt := by
  funext st
  -- the statement's names stay as they are in its instance
  have hdef : ∀ x ∈ Table.keys (Table.insertAll sofar.defined (instantiate stmt st).1.defined),
      σ x = x := by
    intro x hx
    rcases Table.mem_keys_insertAll hx with hx | hx
    · exact hsofar x hx
    · exact hstmt x (keys_defined_instantiate stmt st ▸ hx)
  obtain ⟨result, out, st₁, hrun, heq⟩ := absorb_run sofar span stmt st
  have hcopy := congrFun (instantiate_renameUses (σ := σ) stmt) st
  change instantiate (stmt.renameUses σ) st =
    ((instantiate stmt st).1.renameUses σ, (instantiate stmt st).2) at hcopy
  have hlen : ∀ d : Defined, (Table.mapValues (Typing.renameUses σ) d).length = d.length :=
    fun d => List.length_map _
  rw [Infer.map_apply, heq, absorb_eq, resolve_eq, hcopy]
  simp only [Typing.renameUses_ty, Typing.renameUses_context, Typing.renameUses_defined,
    ← Table.mapValues_insertAll, hlen, resolveNames_renameUses hσ hdef span hrun]
  cases result with
  | error problem => rfl
  | ok _ =>
    simp only [Except.map, Typing.renameUses_mk]

end Rules

/-! ### Another name for free uses -/

namespace Tree

variable {α : Type}

mutual

/-- The tree with another name for the free uses of a name.  A function with a parameter of that
name has none. -/
def renameUses (p q : String) : Tree α → Tree α
  | int l v => int l v
  | tuple l es => tuple l (renameUsesList p q es)
  | array l es => array l (renameUsesList p q es)
  | var l x => var l (if x = p then q else x)
  | apply l f a => apply l (renameUses p q f) (renameUses p q a)
  | fn l ps b => fn l ps (if p ∈ ps then b else renameUses p q b)
  | decl l x v => decl l x (renameUses p q v)
  | assign l x v => assign l x (renameUses p q v)
  | ret l v => ret l (renameUses p q v)
  | block l ss => block l (renameUsesList p q ss)

/-- Some trees with another name for the free uses of a name. -/
def renameUsesList (p q : String) : List (Tree α) → List (Tree α)
  | [] => []
  | t :: ts => renameUses p q t :: renameUsesList p q ts

end

theorem renameUsesList_eq_map (p q : String) (ts : List (Tree α)) :
    renameUsesList p q ts = ts.map (renameUses p q) := by
  induction ts with
  | nil => rfl
  | cons t ts ih => rw [renameUsesList, ih, List.map_cons]

@[simp] theorem label_renameUses (p q : String) (t : Tree α) :
    (t.renameUses p q).label = t.label := by
  cases t <;> rfl

@[simp] theorem kind_renameUses (p q : String) (t : Tree α) :
    (t.renameUses p q).kind = t.kind := by
  cases t <;> rfl

end Tree

section Renaming

variable {p q : String}

/-- Exchanging two names leaves the others as they are. -/
theorem swap_eq_self {x : String} (hp : x ≠ p) (hq : x ≠ q) : Equiv.swap p q x = x :=
  Equiv.swap_apply_of_ne_of_ne hp hq

/-- The uses of a parameter end at its function. -/
theorem Tree.result_fn_swap {l : Span} {params : List String} {body : Tree Span} {T : Typing}
    {st st' : State} (hp : p ∈ params) (hq : ¬(fn l params body).Mentions q)
    (h : (fn l params body).result st = (.ok T, st')) : T.renameUses (Equiv.swap p q) = T := by
  obtain ⟨hnil, hfree⟩ := result_fn_keys h
  refine Typing.renameUses_eq_self (D := fun _ => True) (Typing.named_of_nil hnil fun x hx => ?_)
  refine swap_eq_self (fun heq => hfree x hx (heq ▸ hp)) fun heq => hq (heq ▸ ?_)
  exact (Typing.named_iff.mp (result_named _ h)).1 x hx

/-- Exchanging a parameter with a name that is no parameter replaces it. -/
theorem map_swap_params {params : List String} (hq : q ∉ params) :
    params.map (fun x => if x = p then q else x) = params.map (Equiv.swap p q) := by
  refine List.map_congr_left fun x hx => ?_
  rw [Equiv.swap_apply_def, if_neg fun (h : x = q) => hq (h ▸ hx)]

theorem results_renameUses {ns : List (Tree Span)}
    (ih : ∀ n ∈ ns, (n.renameUses p q).result = Typing.renameUses (Equiv.swap p q) <$> n.result) :
    results (ns.map (Tree.renameUses p q)) =
      List.map (Typing.renameUses (Equiv.swap p q)) <$> results ns := by
  induction ns with
  | nil => rfl
  | cons n ns ihs =>
    rw [List.forall_mem_cons] at ih
    simp only [List.map_cons, results_cons, ih.1, ihs ih.2, map_bind, bind_map_left, map_pure]

theorem blockResult_renameUses {ns : List (Tree Span)}
    (ih : ∀ n ∈ ns, (n.renameUses p q).result = Typing.renameUses (Equiv.swap p q) <$> n.result)
    (hnames : ∀ n ∈ ns, ∀ {st T st'}, n.result st = (.ok T, st') →
      T.Named (fun _ => True) fun x => Equiv.swap p q x = x) :
    ∀ {sofar : Typing}, (sofar.Named (fun _ => True) fun x => Equiv.swap p q x = x) →
      blockResult (sofar.renameUses (Equiv.swap p q)) (ns.map (Tree.renameUses p q)) =
        Typing.renameUses (Equiv.swap p q) <$> blockResult sofar ns := by
  induction ns with
  | nil =>
    intro sofar _
    rfl
  | cons n ns ihs =>
    intro sofar hsofar
    rw [List.forall_mem_cons] at ih hnames
    funext st
    rw [List.map_cons, blockResult_cons, blockResult_cons, ih.1, Tree.kind_renameUses,
      Tree.label_renameUses, map_bind, Infer.lift_bind_apply, Infer.lift_bind_apply, bind_map_left,
      map_bind, Infer.bind_apply, Infer.bind_apply]
    rcases hn : n.result _ with ⟨problem | raw, st₁⟩
    · rfl
    -- what a statement declares is not renamed, so it can be taken in under the other names
    · have hraw := hnames.1 hn
      simp only [absorb_renameUses (Equiv.swap p q).injective sofar n.label raw
        hsofar.keys_defined hraw.keys_defined, Infer.bind_apply, Infer.map_apply]
      rcases habs : absorb sofar n.label raw st₁ with ⟨problem | sofar', st₂⟩
      · rfl
      · have hrest := congrFun (ihs ih.2 hnames.2 (absorb_named hsofar hraw habs)) st₂
        rwa [Infer.map_apply] at hrest

/-- **The same typing is found, with other names for the uses.** -/
theorem Tree.result_renameUses (n : Tree Span) (hq : ¬n.Mentions q) (hp : ¬n.Declaring p) :
    (n.renameUses p q).result = Typing.renameUses (Equiv.swap p q) <$> n.result := by
  have hσ : Function.Injective (Equiv.swap p q) := (Equiv.swap p q).injective
  induction n using Tree.induction with
  | int l value =>
    rw [renameUses, result_int]
    rfl
  | var l name =>
    have hne : name ≠ q := fun h => hq (.here (by simp [ownNames, h]))
    have hname : (if name = p then q else name) = Equiv.swap p q name := by
      rw [Equiv.swap_apply_def, if_neg hne]
    rw [renameUses, hname, result_var, result_var]
    rfl
  | array l elems _ =>
    rw [renameUses, result_array, result_array]
    rfl
  | assign l name value _ =>
    rw [renameUses, result_assign, result_assign]
    rfl
  | tuple l elems ih =>
    have ih' : ∀ n ∈ elems, _ := fun n hn => ih n hn
      (fun h => hq (h.of_child (t := .tuple l elems) hn))
      (fun h => hp (h.of_child (t := .tuple l elems) hn))
    rw [renameUses, renameUsesList_eq_map, result_tuple, result_tuple, results_renameUses ih']
    simp only [map_bind, bind_map_left, map_pure, tupleTyping_renameUses hσ]
  | apply l fn arg ihf iha =>
    have hfn := ihf (fun h => hq (h.of_child (by simp [children])))
      (fun h => hp (h.of_child (by simp [children])))
    have harg := iha (fun h => hq (h.of_child (by simp [children])))
      (fun h => hp (h.of_child (by simp [children])))
    rw [renameUses, result_apply, result_apply, hfn, harg]
    simp only [map_bind, bind_map_left, instantiate_renameUses, liftM_map,
      applyTypings_renameUses hσ]
  | fn l params body ih =>
    rw [renameUses]
    by_cases hmem : p ∈ params
    · -- the uses of the name are bound here, so there are none to rename
      rw [if_pos hmem]
      funext st
      rw [Infer.map_apply]
      rcases h : (fn l params body).result st with ⟨problem | T, st'⟩
      · rfl
      · simp only [Except.map, result_fn_swap hmem hq h]
    · have hbody := ih (fun h => hq (h.of_child (by simp [children])))
        (fun h => hp (h.of_child (by simp [children])))
      have hparams : ∀ x ∈ params, Equiv.swap p q x = x := fun x hx =>
        swap_eq_self (fun heq => hmem (heq ▸ hx)) fun heq => hq (.here (by simpa [ownNames, ← heq]))
      have hfn : ∀ copy : Typing, fnTyping l params (copy.renameUses (Equiv.swap p q)) =
          Typing.renameUses (Equiv.swap p q) <$> fnTyping l params copy := by
        intro copy
        have hecho := (fnTyping_renameUses (E := Eq) hσ l params
          (fun x hx cause => by rw [hparams x hx]) copy).eq
        rwa [List.map_congr_left hparams, List.map_id', eq_comm] at hecho
      rw [if_neg hmem, result_fn, result_fn, hbody]
      simp only [map_bind, bind_map_left, instantiate_renameUses, liftM_map, hfn]
  | decl l name value ih =>
    have hvalue := ih (fun h => hq (h.of_child (by simp [children])))
      (fun h => hp (h.of_child (by simp [children])))
    rw [renameUses, result_decl, result_decl, hvalue]
    simp only [map_bind, bind_map_left, map_pure]
    rfl
  | ret l value ih =>
    rw [renameUses, result_ret, result_ret]
    exact ih (fun h => hq (h.of_child (by simp [children])))
      (fun h => hp (h.of_child (by simp [children])))
  | block l stmts ih =>
    have ih' : ∀ n ∈ stmts, _ := fun n hn => ih n hn
      (fun h => hq (h.of_child (t := .block l stmts) hn))
      (fun h => hp (h.of_child (t := .block l stmts) hn))
    rw [renameUses, renameUsesList_eq_map, result_block, result_block]
    have hunit : (Typing.closed .unit).Named (fun _ => True) fun x => Equiv.swap p q x = x :=
      Typing.named_of_nil rfl fun _ _ => trivial
    refine blockResult_renameUses ih' (fun n hn _ _ _ h => ?_) hunit
    refine ((result_named n h).of_child (n := .block l stmts) hn).imp (fun _ _ => trivial) ?_
    exact fun x hx => swap_eq_self (fun heq => hp (heq ▸ hx)) fun heq => hq (heq ▸ hx.mentions)

end Renaming

/-! ### Problems that name the parameter -/

/-- What was being checked when a cause came up. -/
def TypeCause.during : TypeCause → Option String
  | mismatch _ _ description | infinite _ _ description => description
  | _ => none

/-- The cause, with other words for what was being checked. -/
def TypeCause.rephrase (description : String) : TypeCause → TypeCause
  | mismatch expected found _ => mismatch expected found (some description)
  | infinite var ty _ => infinite var ty (some description)
  | cause => cause

/-- Two problems at one place that are equal, or differ in the parameter that was being checked. -/
def SameUpToParameter (p q : String) (e e' : Problem) : Prop :=
  e'.span = e.span ∧ (e'.val = e.val ∨
    e.val.during = some (parameterOf p) ∧ e'.val = e.val.rephrase (parameterOf q))

theorem SameUpToParameter.refl (p q : String) (e : Problem) : SameUpToParameter p q e e :=
  ⟨rfl, Or.inl rfl⟩

theorem sameUpToParameter_whileChecking (p q : String) (cause : TypeCause) (span : Span) :
    SameUpToParameter p q ⟨cause.whileChecking (parameterOf p), span⟩
      ⟨cause.whileChecking (parameterOf q), span⟩ := by
  refine ⟨rfl, ?_⟩
  match cause with
  | .mismatch _ _ none | .infinite _ _ none => exact Or.inr ⟨rfl, rfl⟩
  | .mismatch _ _ (some _) | .infinite _ _ (some _) => exact Or.inl rfl
  | .arrayLiteral | .assignment _ | .recursive _ | .application _ _ | .unbound _ =>
    exact Or.inl rfl

/-! ### A node within a tree -/

/-- Two nodes of one kind at one place with the same typing, or with problems that are related. -/
structure Tree.Echoed (E : Problem → Problem → Prop) (n n' : Tree Span) : Prop where
  label : n'.label = n.label
  kind : n'.kind = n.kind
  result : Echo E n.result n'.result

section Within

variable {E : Problem → Problem → Prop} (hE : ∀ e, E e e)

include hE

theorem results_echo {ns ns' : List (Tree Span)} (h : List.Forall₂ (Tree.Echoed E) ns ns') :
    Echo E (results ns) (results ns') := by
  induction h with
  | nil => exact .refl hE _
  | cons hn _ ih =>
    rw [results_cons, results_cons]
    exact hn.result.bind fun _ => ih.bind fun _ => .refl hE _

theorem blockResult_echo {ns ns' : List (Tree Span)} (h : List.Forall₂ (Tree.Echoed E) ns ns') :
    ∀ sofar, Echo E (blockResult sofar ns) (blockResult sofar ns') := by
  induction h with
  | nil => exact fun sofar => .refl hE _
  | cons hn _ ih =>
    intro sofar
    rw [blockResult_cons, blockResult_cons, hn.kind, hn.label]
    exact Echo.bind (.refl hE _) fun _ => hn.result.bind fun _ =>
      Echo.bind (.refl hE _) fun sofar' => ih sofar'

theorem Tree.Echoed.refl (n : Tree Span) : n.Echoed E n := ⟨rfl, rfl, .refl hE _⟩

theorem Tree.Echoed.setChild {t c c' : Tree Span} {i : Nat} (hi : t.children[i]? = some c)
    (h : c.Echoed E c') : t.Echoed E (t.setChild i c') := by
  obtain ⟨hlt, -⟩ := List.getElem?_eq_some_iff.mp hi
  refine ⟨label_setChild t i c', ?_, ?_⟩
  · unfold Tree.setChild
    split <;> rfl
  cases t with
  | int _ _ | var _ _ => exact absurd hlt (by simp [children])
  | tuple l es =>
    rw [Tree.setChild, result_tuple, result_tuple]
    exact (results_echo hE (forall₂_set (.refl hE) hi h)).bind fun _ => .refl hE _
  -- no array has a typing, so its elements play no part
  | array l es =>
    rw [Tree.setChild, result_array, result_array]
    exact .refl hE _
  | block l ss =>
    rw [Tree.setChild, result_block, result_block]
    exact blockResult_echo hE (forall₂_set (.refl hE) hi h) _
  | apply l f a =>
    -- the function or the argument is replaced, and the other is inferred as before
    have htwo : i < 2 := hlt
    obtain rfl | rfl : i = 0 ∨ i = 1 := by omega
    · obtain rfl : f = c := Option.some.inj hi
      rw [Tree.setChild, result_apply, result_apply]
      exact h.result.bind fun _ => .refl hE _
    · obtain rfl : a = c := Option.some.inj hi
      rw [Tree.setChild, result_apply, result_apply]
      exact Echo.bind (.refl hE _) fun _ => Echo.bind (.refl hE _) fun _ =>
        h.result.bind fun _ => .refl hE _
  | fn l ps b =>
    obtain rfl : i = 0 := Nat.lt_one_iff.mp hlt
    obtain rfl : b = c := Option.some.inj hi
    rw [Tree.setChild, result_fn, result_fn]
    exact h.result.bind fun _ => .refl hE _
  | decl l x v =>
    obtain rfl : i = 0 := Nat.lt_one_iff.mp hlt
    obtain rfl : v = c := Option.some.inj hi
    rw [Tree.setChild, result_decl, result_decl]
    exact h.result.bind fun _ => .refl hE _
  | assign l x v =>
    obtain rfl : i = 0 := Nat.lt_one_iff.mp hlt
    rw [Tree.setChild, result_assign, result_assign]
    exact .refl hE _
  | ret l v =>
    obtain rfl : i = 0 := Nat.lt_one_iff.mp hlt
    obtain rfl : v = c := Option.some.inj hi
    rw [Tree.setChild, result_ret, result_ret]
    exact h.result

theorem Tree.Echoed.set {t n n' : Tree Span} {path : List Nat} (hpath : t.get? path = some n)
    (h : n.Echoed E n') : t.Echoed E (t.set n' path) := by
  induction hpath using pathInduction with
  | here => exact h
  | below t i c path hi _ ih =>
    rw [set_cons hi]
    exact .setChild hE hi ih

end Within

/-! ### A function with another parameter -/

/-- A function has the same typing with another name for a parameter. -/
theorem Tree.echoed_renameParam {l : Span} {params : List String} {body : Tree Span} {p q : String}
    (hp : p ∈ params) (hdecl : ¬body.Declaring p) (hq : ¬(fn l params body).Mentions q) :
    (fn l params body).Echoed (SameUpToParameter p q)
      (fn l (params.map fun x => if x = p then q else x) (body.renameUses p q)) := by
  have hqbody : ¬body.Mentions q := fun h => hq (h.of_child (by simp [children]))
  have hparams := map_swap_params (p := p) fun h => hq (.here (by simpa [ownNames] using h))
  -- the uses of the parameter end here, so the function has the same typing under other names
  have hself : (fn l params body).result =
      Typing.renameUses (Equiv.swap p q) <$> (fn l params body).result := by
    have h := result_renameUses (fn l params body) hq (p := p) fun h => by
      rcases exists_subtree_iff.mp h with h | ⟨c, hc, h⟩
      · cases h
      · exact hdecl (List.mem_singleton.mp hc ▸ h)
    rwa [renameUses, if_pos hp] at h
  have hE : ∀ x ∈ params, ∀ cause : TypeCause, SameUpToParameter p q
      ⟨cause.whileChecking (parameterOf x), l⟩
      ⟨cause.whileChecking (parameterOf (Equiv.swap p q x)), l⟩ := by
    intro x hx cause
    by_cases hxp : x = p
    · rw [hxp, Equiv.swap_apply_left]
      exact sameUpToParameter_whileChecking p q cause l
    · rw [swap_eq_self hxp fun h => hq (.here (by simpa [ownNames, ← h]))]
      exact .refl p q _
  refine ⟨rfl, rfl, ?_⟩
  rw [hself, result_fn, result_fn, hparams, result_renameUses body hqbody hdecl]
  simp only [map_bind, bind_map_left, instantiate_renameUses, liftM_map]
  exact Echo.bind (.refl (SameUpToParameter.refl p q) _) fun raw =>
    Echo.bind (.refl (SameUpToParameter.refl p q) _) fun copy =>
      fnTyping_renameUses (Equiv.swap p q).injective l params hE copy

/-- **A parameter can be renamed**, together with its uses, to a name that is written nowhere.  The
typing and the state are the same, variables included.  A problem is of the same kind, has the same
texts and is at the same place, except that it may name the parameter that was being checked. -/
theorem infer_renameParam {t : Tree Span} {path : List Nat} {l : Span} {params : List String}
    {body : Tree Span} {p q : String} (hfn : t.get? path = some (.fn l params body))
    (hp : p ∈ params) (hdecl : ¬body.Declaring p) (hq : ¬t.Mentions q) (st : State) :
    let t' := t.set (.fn l (params.map fun x => if x = p then q else x) (body.renameUses p q)) path
    (infer t'.unmarked st).2 = (infer t.unmarked st).2 ∧
      ((∃ T, (infer t.unmarked st).1.1 = .ok T ∧ (infer t'.unmarked st).1.1 = .ok T) ∨
        ∃ e e', (infer t.unmarked st).1.1 = .error e ∧ (infer t'.unmarked st).1.1 = .error e' ∧
          e'.span = e.span ∧ (e'.val = e.val ∨
            e.val.during = some (parameterOf p) ∧ e'.val = e.val.rephrase (parameterOf q))) := by
  intro t'
  have hqfn : ¬(Tree.fn l params body).Mentions q := fun h => hq (h.of_get? hfn)
  -- the function echoes the other one, and so do the trees around it
  have hecho := (Tree.Echoed.set (SameUpToParameter.refl p q) hfn
    (Tree.echoed_renameParam hp hdecl hqfn)).result st
  change Echoes _ ((infer t.unmarked st).1.1, (infer t.unmarked st).2)
    ((infer t'.unmarked st).1.1, (infer t'.unmarked st).2) at hecho
  generalize (infer t.unmarked st).1.1 = r, (infer t.unmarked st).2 = s at hecho ⊢
  generalize (infer t'.unmarked st).1.1 = r', (infer t'.unmarked st).2 = s' at hecho ⊢
  cases hecho with
  | ok => exact ⟨rfl, Or.inl ⟨_, rfl, rfl⟩⟩
  | error h => exact ⟨rfl, Or.inr ⟨_, _, rfl, rfl, h⟩⟩

/-- A parameter that is hidden within, and one that is used at two types. -/
theorem infer_renameParam_hidden :
    let f : Tree Span := .var ⟨0, 0⟩ "f"
    let pair : Tree Span := .tuple ⟨0, 0⟩
      [.apply ⟨0, 0⟩ f (.tuple ⟨0, 0⟩ [.var ⟨0, 0⟩ "x"]), .fn ⟨0, 0⟩ ["f"] f]
    let clash : Tree Span := .tuple ⟨0, 0⟩
      [.apply ⟨0, 0⟩ f (.tuple ⟨0, 0⟩ []), .apply ⟨0, 0⟩ f (.tuple ⟨0, 0⟩ [f])]
    let hidden : Tree Span := .block ⟨0, 0⟩ [.decl ⟨0, 0⟩ "pair" (.fn ⟨0, 0⟩ ["f", "x"] pair)]
    let hidden' := hidden.set (.fn ⟨0, 0⟩ (["f", "x"].map fun x => if x = "f" then "g" else x)
      (pair.renameUses "f" "g")) [0, 0]
    let clashing : Tree Span := .fn ⟨1, 2⟩ ["f"] clash
    let clashing' := clashing.set (.fn ⟨1, 2⟩ (["f"].map fun x => if x = "f" then "g" else x)
      (clash.renameUses "f" "g")) []
    (∃ T, (infer hidden.unmarked {}).1.1 = .ok T ∧ (infer hidden'.unmarked {}).1.1 = .ok T) ∧
      ∃ e e', (infer clashing.unmarked {}).1.1 = .error e ∧
        (infer clashing'.unmarked {}).1.1 = .error e' ∧ e'.span = e.span ∧ (e'.val = e.val ∨
          e.val.during = some (parameterOf "f") ∧ e'.val = e.val.rephrase (parameterOf "g")) := by
  intro f pair clash hidden hidden' clashing clashing'
  subst hidden' clashing'
  have hok : (infer hidden.unmarked {}).1.1.isOk = true := by decide +kernel
  have hfail : (infer clashing.unmarked {}).1.1.isOk = false := by decide +kernel
  constructor
  · have hpath : hidden.get? [0, 0] = some (.fn ⟨0, 0⟩ ["f", "x"] pair) := rfl
    rcases (infer_renameParam (p := "f") (q := "g") hpath (by decide) (by decide +kernel)
      (by decide +kernel) {}).2 with h | ⟨e, e', he, -⟩
    · exact h
    · exact absurd (hok.symm.trans (congrArg Except.isOk he)) Bool.noConfusion
  · have hpath : clashing.get? [] = some (.fn ⟨1, 2⟩ ["f"] clash) := rfl
    rcases (infer_renameParam (p := "f") (q := "g") hpath (by decide) (by decide +kernel)
      (by decide +kernel) {}).2 with ⟨T, hT, -⟩ | h
    · exact absurd (hfail.symm.trans (congrArg Except.isOk hT)) Bool.noConfusion
    · exact h

end LetTyping
