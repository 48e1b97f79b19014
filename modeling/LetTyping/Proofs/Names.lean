import LetTyping.Proofs.Result
import LetTyping.Proofs.Typing

/-!
# The names of a typing

A typing uses names in its context and declares names, and the typings of declared names do so in
turn.  All of them are written below the node: inference makes up no names.

## Main definitions

* `Typing.Named` — properties of the names that a typing uses and declares.
* `Tree.Mentions`, `Tree.Declaring` — a name is written, or declared, somewhere in a tree.

## Main results

* `ResolutionRun.named`, `absorb_named` — names that pass out come from a context or a declaration.
* `Tree.result_named` — **a typing uses and declares names from below its node.**
-/

namespace LetTyping

/-! ### Names in tables -/

namespace Table

variable {β γ : Type}

theorem keys_cons (e : String × β) (t : Table β) : keys (e :: t) = e.1 :: keys t := rfl

theorem exists_get?_of_mem_keys {t : Table β} {name : String} (h : name ∈ keys t) :
    ∃ b, get? t name = some b :=
  Option.isSome_iff_exists.mp ((has_iff_mem_keys t name).mpr h)

theorem not_mem_keys_of_get? {t : Table β} {name : String} (h : get? t name = none) :
    name ∉ keys t := by
  intro hmem
  obtain ⟨b, hb⟩ := exists_get?_of_mem_keys hmem
  rw [h] at hb
  cases hb

theorem mem_keys_of_get? {t : Table β} {name : String} {b : β} (h : get? t name = some b) :
    name ∈ keys t := List.mem_map_of_mem (mem_of_get? h)

theorem mem_keys_alter {t : Table β} {name x : String} {f : Option β → β}
    (h : x ∈ keys (alter t name f)) : x ∈ keys t ∨ x = name := by
  rw [keys_alter] at h
  split at h
  · exact Or.inl h
  · simpa using h

theorem mem_keys_insertAll {t u : Table β} {x : String} (h : x ∈ keys (insertAll t u)) :
    x ∈ keys t ∨ x ∈ keys u := by
  obtain ⟨e, he, rfl⟩ := List.mem_map.mp h
  exact (mem_insertAll he).imp List.mem_map_of_mem List.mem_map_of_mem

theorem mem_keys_insertAll_of {t u : Table β} {x : String} (h : x ∈ keys t ∨ x ∈ keys u) :
    x ∈ keys (insertAll t u) := by
  induction u generalizing t with
  | nil => exact h.resolve_right List.not_mem_nil
  | cons e u ih =>
    have hkeys : keys (insert t e.1 e.2) = if e.1 ∈ keys t then keys t else keys t ++ [e.1] :=
      keys_alter t e.1 _
    rw [keys_cons, List.mem_cons] at h
    refine ih ?_
    rw [hkeys]
    split <;> grind

theorem get?_insertAll_of_not_mem {t u : Table β} {x : String} (h : x ∉ keys u) :
    get? (insertAll t u) x = get? t x := by
  induction u generalizing t with
  | nil => rfl
  | cons e u ih =>
    rw [keys_cons, List.mem_cons, not_or] at h
    rw [insertAll_cons, ih h.2, get?_insert, if_neg h.1]

end Table

namespace Uses

variable {τ : Type} {P : String → Prop}

theorem keys_addAll (c : Uses τ) (name : String) (ts : List τ)
    (hc : ∀ x ∈ Table.keys c, P x) (hname : P name) : ∀ x ∈ Table.keys (addAll c name ts), P x := by
  intro x hx
  rcases Table.mem_keys_alter hx with hx | rfl
  · exact hc x hx
  · exact hname

theorem keys_union {c d : Uses τ} (hc : ∀ x ∈ Table.keys c, P x) (hd : ∀ x ∈ Table.keys d, P x) :
    ∀ x ∈ Table.keys (union c d), P x := by
  induction d generalizing c with
  | nil => exact hc
  | cons e d ih =>
    rw [Table.keys, List.map_cons, List.forall_mem_cons] at hd
    exact ih (keys_addAll c e.1 e.2 hc hd.1) hd.2

theorem keys_passOut {c : Uses τ} {name : String} (hc : ∀ x ∈ Table.keys c, P x) (hname : P name)
    (ts : List τ) : ∀ x ∈ Table.keys (passOut c name ts), P x := by
  induction ts generalizing c with
  | nil => exact hc
  | cons t ts ih => exact ih (keys_addAll c name [t] hc hname)

end Uses

/-! ### Names in typings -/

namespace Typing

/-- Names that are used satisfy `P` and names that are declared satisfy `D`, also in what is
declared. -/
inductive Named (P D : String → Prop) : Typing → Prop
  | mk {ty context defined} (uses : ∀ x ∈ Table.keys context, P x)
      (names : ∀ e ∈ defined, D e.1) (values : ∀ e ∈ defined, Named P D e.2) :
      Named P D ⟨ty, context, defined⟩

variable {P D : String → Prop} {T : Typing}

theorem named_iff : T.Named P D ↔
    (∀ x ∈ Table.keys T.context, P x) ∧ ∀ e ∈ T.defined, D e.1 ∧ e.2.Named P D := by
  constructor
  · rintro ⟨uses, names, values⟩
    exact ⟨uses, fun e he => ⟨names e he, values e he⟩⟩
  · rintro ⟨uses, names⟩
    obtain ⟨ty, context, defined⟩ := T
    exact ⟨uses, fun e he => (names e he).1, fun e he => (names e he).2⟩

theorem Named.keys_defined (h : T.Named P D) : ∀ x ∈ Table.keys T.defined, D x := by
  rw [Table.keys, List.forall_mem_map]
  exact fun e he => ((named_iff.mp h).2 e he).1

theorem named_of_nil (h : T.defined = []) (huses : ∀ x ∈ Table.keys T.context, P x) :
    T.Named P D := by
  rw [named_iff, h]
  exact ⟨huses, by simp⟩

theorem named_mapTypes {g : Ty → Ty} (h : T.Named P D) : (T.mapTypes g).Named P D := by
  induction T using Typing.induction with
  | mk ty context defined ih =>
    obtain ⟨huses, hdefined⟩ := named_iff.mp h
    rw [named_iff, mapTypes_context, mapTypes_defined, Uses.keys_map, Table.mapValues,
      List.forall_mem_map]
    exact ⟨huses, fun e he => ⟨(hdefined e he).1, ih e he (hdefined e he).2⟩⟩

theorem Named.imp {P' D' : String → Prop} (h : T.Named P D)
    (hP : ∀ x, P x → P' x) (hD : ∀ x, D x → D' x) : T.Named P' D' := by
  induction T using Typing.induction with
  | mk ty context defined ih =>
    obtain ⟨huses, hdefined⟩ := named_iff.mp h
    exact named_iff.mpr ⟨fun x hx => hP x (huses x hx),
      fun e he => ⟨hD _ (hdefined e he).1, ih e he (hdefined e he).2⟩⟩

end Typing

/-! ### Names in trees -/

namespace Tree

variable {α : Type}

/-- The names that are written at the root of a tree. -/
def ownNames : Tree α → List String
  | var _ name | decl _ name _ | assign _ name _ => [name]
  | fn _ params _ => params
  | _ => []

/-- The name that the root of a tree declares. -/
def ownDeclaration : Tree α → Option String
  | decl _ name _ => some name
  | _ => none

/-- A name is written somewhere in a tree. -/
def Mentions (t : Tree α) (name : String) : Prop := ∃ n ∈ t.subtrees, name ∈ n.ownNames

/-- A declaration of a name stands somewhere in a tree. -/
def Declaring (t : Tree α) (name : String) : Prop :=
  ∃ n ∈ t.subtrees, n.ownDeclaration = some name

instance (t : Tree α) (name : String) : Decidable (t.Mentions name) :=
  inferInstanceAs (Decidable (∃ n ∈ t.subtrees, name ∈ n.ownNames))

instance (t : Tree α) (name : String) : Decidable (t.Declaring name) :=
  inferInstanceAs (Decidable (∃ n ∈ t.subtrees, n.ownDeclaration = some name))

theorem exists_subtree_iff {Q : Tree α → Prop} {t : Tree α} :
    (∃ n ∈ t.subtrees, Q n) ↔ Q t ∨ ∃ c ∈ t.children, ∃ n ∈ c.subtrees, Q n := by
  rw [subtrees_eq t]
  simp only [List.mem_cons, List.mem_flatMap, or_and_right, exists_or, exists_eq_left]
  exact or_congr_right ⟨fun ⟨n, ⟨c, hc, hn⟩, h⟩ => ⟨c, hc, n, hn, h⟩,
    fun ⟨c, hc, n, hn, h⟩ => ⟨n, ⟨c, hc, hn⟩, h⟩⟩

theorem Mentions.of_child {t c : Tree α} (hc : c ∈ t.children) {name : String}
    (h : c.Mentions name) : t.Mentions name := exists_subtree_iff.mpr (Or.inr ⟨c, hc, h⟩)

theorem Declaring.of_child {t c : Tree α} (hc : c ∈ t.children) {name : String}
    (h : c.Declaring name) : t.Declaring name := exists_subtree_iff.mpr (Or.inr ⟨c, hc, h⟩)

theorem Mentions.here {t : Tree α} {name : String} (h : name ∈ t.ownNames) : t.Mentions name :=
  exists_subtree_iff.mpr (Or.inl h)

theorem Mentions.of_get? {t n : Tree α} {path : List Nat} (hpath : t.get? path = some n)
    {name : String} (h : n.Mentions name) : t.Mentions name := by
  induction hpath using pathInduction with
  | here => exact h
  | below t i c path hi _ ih => exact ih.of_child (List.mem_of_getElem? hi)

theorem Declaring.mentions {t : Tree α} {name : String} (h : t.Declaring name) :
    t.Mentions name := by
  obtain ⟨n, hn, hname⟩ := h
  refine ⟨n, hn, ?_⟩
  cases n with
  | decl l x v =>
    obtain rfl := Option.some.inj hname
    simp [ownNames]
  | _ => cases hname

end Tree

/-! ### The names of inferred typings -/

section Rules

variable {P D : String → Prop}

theorem instantiate_named {T : Typing} (h : T.Named P D) (st : State) :
    (instantiate T st).1.Named P D := Typing.named_mapTypes (Typing.named_mapTypes h)

/-- An instance uses the names that the typing uses. -/
theorem keys_context_instantiate (T : Typing) (st : State) :
    Table.keys (instantiate T st).1.context = Table.keys T.context := by
  change Table.keys ((T.apply st.subst).apply _).context = _
  rw [Typing.apply, Typing.mapTypes_context, Uses.keys_map, Typing.apply, Typing.mapTypes_context,
    Uses.keys_map]

/-- An instance has the declarations that the typing has. -/
theorem keys_defined_instantiate (T : Typing) (st : State) :
    Table.keys (instantiate T st).1.defined = Table.keys T.defined := by
  change Table.keys ((T.apply st.subst).apply _).defined = _
  rw [Typing.apply, Typing.mapTypes_defined, Table.keys_mapValues, Typing.apply,
    Typing.mapTypes_defined, Table.keys_mapValues]

/-- Names that pass out come from the context or from a declaration. -/
theorem ResolutionRun.named {defined : Defined} {span : Span} {depth : Nat} {chain : List String}
    {context out : Context} {st : State} {res : Outcome Unit Context × State}
    (hrun : ResolutionRun defined span depth chain context out st res)
    (hdef : ∀ e ∈ defined, e.2.Named P D) (hcontext : ∀ x ∈ Table.keys context, P x)
    (hout : ∀ x ∈ Table.keys out, P x) : ∀ x ∈ Table.keys res.1.2, P x := by
  -- an instance uses the names that its declaration uses
  have hcopy : ∀ {name S}, Table.get? defined name = some S → ∀ st,
      ∀ x ∈ Table.keys (instantiate S st).1.context, P x := fun h st =>
    (Typing.named_iff.mp (instantiate_named (hdef _ (Table.mem_of_get? h)) st)).1
  induction hrun with
  | nil => exact hout
  | undeclared _ _ ih =>
    rw [Table.keys, List.map_cons, List.forall_mem_cons] at hcontext
    exact ih hcontext.2 (Uses.keys_passOut hout hcontext.1 _)
  | recursive => exact hout
  | clash => exact hout
  | fail h _ _ _ ih => exact ih (hcopy h _) hout
  | declared h _ _ _ _ ih ihrest =>
    rw [Table.keys, List.map_cons, List.forall_mem_cons] at hcontext
    exact ihrest hcontext.2 (ih (hcopy h _) hout)

theorem absorb_named {sofar stmt T : Typing} {span : Span} {st st' : State}
    (hsofar : sofar.Named P D) (hstmt : stmt.Named P D)
    (h : absorb sofar span stmt st = (.ok T, st')) : T.Named P D := by
  obtain ⟨huses, hdefined⟩ := Typing.named_iff.mp hsofar
  obtain ⟨huses', hdefined'⟩ := Typing.named_iff.mp (instantiate_named hstmt st)
  have hdef : ∀ e ∈ Table.insertAll sofar.defined (instantiate stmt st).1.defined,
      D e.1 ∧ e.2.Named P D := fun e he => (Table.mem_insertAll he).elim (hdefined e) (hdefined' e)
  obtain ⟨result, out, st₁, hrun, heq⟩ := absorb_run sofar span stmt st
  rw [heq] at h
  cases result with
  | error problem => cases h
  | ok _ =>
    cases h
    exact Typing.named_iff.mpr ⟨hrun.named (fun e he => (hdef e he).2) huses' huses, hdef⟩

/-- Bound parameters are free no longer, and no name is added. -/
theorem bindParams_keys (span : Span) (params : List String) :
    ∀ {context : Context} {st st' : State} {ts : List Ty} {c : Context},
      bindParams span params context st = (.ok (ts, c), st') →
      ∀ x ∈ Table.keys c, x ∈ Table.keys context ∧ x ∉ params := by
  induction params with
  | nil =>
    intro context st st' ts c h
    rw [bindParams_nil] at h
    cases h
    exact fun x hx => ⟨hx, by simp⟩
  | cons param params ih =>
    intro context st st' ts c h
    rw [bindParams_cons] at h
    rcases heq : equateAll span (parameterOf param) (.var ⟨st.count, none⟩) (context.uses param)
      st.next with ⟨problem | _, st₁⟩ <;> rw [heq] at h
    · cases h
    simp only at h
    rcases hrest : bindParams span params (Table.erase context param) st₁ with
      ⟨problem | ⟨ts', c'⟩, st₂⟩ <;> rw [hrest] at h
    · cases h
    cases h
    intro x hx
    obtain ⟨hmem, hnot⟩ := ih hrest x hx
    -- what is left has lost this parameter first, and then the others
    rw [Table.keys_erase, List.mem_filter, decide_eq_true_iff] at hmem
    exact ⟨hmem.1, by simp [hmem.2, hnot]⟩

/-- The names that a tuple uses are used in its elements. -/
theorem mem_keys_tupleTyping {Ts : List Typing} {x : String}
    (h : x ∈ Table.keys (tupleTyping Ts).context) : ∃ T ∈ Ts, x ∈ Table.keys T.context := by
  have hfold : ∀ Us ⊆ Ts, ∀ c : Context, (∀ x ∈ Table.keys c, ∃ T ∈ Ts, x ∈ Table.keys T.context) →
      ∀ x ∈ Table.keys (Us.foldl (fun c T => Context.union c T.context) c),
        ∃ T ∈ Ts, x ∈ Table.keys T.context := by
    intro Us hUs
    induction Us with
    | nil => exact fun c hc => hc
    | cons U Us ih =>
      intro c hc
      rw [List.cons_subset] at hUs
      exact ih hUs.2 _ (Uses.keys_union hc fun x hx => ⟨U, hUs.1, hx⟩)
  exact hfold Ts (List.Subset.refl Ts) [] (by simp [Table.keys]) x h

theorem tupleTyping_named {Ts : List Typing} (h : ∀ T ∈ Ts, T.Named P D) :
    (tupleTyping Ts).Named P D := by
  refine Typing.named_of_nil rfl fun x hx => ?_
  obtain ⟨T, hT, hx⟩ := mem_keys_tupleTyping hx
  exact (Typing.named_iff.mp (h T hT)).1 x hx

/-- A function declares nothing, and its parameters are not free in it. -/
theorem Tree.result_fn_keys {l : Span} {params : List String} {body : Tree Span} {st st' : State}
    {T : Typing} (h : (fn l params body).result st = (.ok T, st')) :
    T.defined = [] ∧ ∀ x ∈ Table.keys T.context, x ∉ params := by
  rw [result_fn] at h
  obtain ⟨raw, st₁, -, h⟩ := Infer.bind_ok h
  rw [Infer.lift_bind_apply, fnTyping] at h
  obtain ⟨⟨ts, c⟩, st₂, hbind, h⟩ := Infer.bind_ok h
  cases h
  exact ⟨rfl, fun x hx => (bindParams_keys l params hbind x hx).2⟩

/-- The names of a typing stand below its node. -/
def Tree.Names (n : Tree Span) (T : Typing) : Prop := T.Named n.Mentions n.Declaring

theorem Tree.Names.of_child {n c : Tree Span} {T : Typing} (h : c.Names T) (hc : c ∈ n.children) :
    n.Names T := h.imp (fun _ => .of_child hc) fun _ => .of_child hc

/-- The typings of some trees are typings of single ones. -/
theorem results_mem {ns : List (Tree Span)} :
    ∀ {st Ts st'}, results ns st = (.ok Ts, st') →
      ∀ T ∈ Ts, ∃ n ∈ ns, ∃ st₁ st₂, n.result st₁ = (.ok T, st₂) := by
  induction ns with
  | nil =>
    intro st Ts st' h
    cases h
    simp
  | cons n ns ih =>
    intro st Ts st' h
    rw [results_cons] at h
    obtain ⟨T, st₁, hn, h⟩ := Infer.bind_ok h
    obtain ⟨Ts', st₂, hns, h⟩ := Infer.bind_ok h
    cases h
    refine List.forall_mem_cons.mpr ⟨⟨n, List.mem_cons_self, _, _, hn⟩, fun T hT => ?_⟩
    obtain ⟨n', hn', hres⟩ := ih hns T hT
    exact ⟨n', List.mem_cons_of_mem _ hn', hres⟩

theorem blockResult_named {ns : List (Tree Span)} (ih : ∀ n ∈ ns, ∀ {st T st'},
      n.result st = (.ok T, st') → T.Named P D) :
    ∀ {sofar st T st'}, sofar.Named P D → blockResult sofar ns st = (.ok T, st') →
      T.Named P D := by
  induction ns with
  | nil =>
    intro sofar st T st' hsofar h
    cases h
    exact hsofar
  | cons n ns ihs =>
    intro sofar st T st' hsofar h
    rw [List.forall_mem_cons] at ih
    rw [blockResult_cons, Infer.lift_bind_apply] at h
    obtain ⟨raw, st₁, hn, h⟩ := Infer.bind_ok h
    obtain ⟨sofar', st₂, habs, h⟩ := Infer.bind_ok h
    exact ihs ih.2 (absorb_named hsofar (ih.1 hn) habs) h

/-- **A typing uses and declares names from below its node.** -/
theorem Tree.result_named (n : Tree Span) :
    ∀ {st T st'}, n.result st = (.ok T, st') → n.Names T := by
  induction n using Tree.induction with
  | int l value =>
    intro st T st' h
    rw [result_int] at h
    cases h
    exact Typing.named_of_nil rfl (by simp [Typing.closed, Table.keys])
  | var l name =>
    intro st T st' h
    rw [result_var] at h
    cases h
    refine Typing.named_of_nil rfl fun x hx => ?_
    rw [List.mem_singleton.mp hx]
    exact .here (by simp [ownNames])
  | array l elems _ =>
    intro st T st' h
    rw [result_array] at h
    cases h
  | assign l name value _ =>
    intro st T st' h
    rw [result_assign] at h
    cases h
  | tuple l elems ih =>
    intro st T st' h
    rw [result_tuple] at h
    obtain ⟨Ts, st₁, hns, h⟩ := Infer.bind_ok h
    cases h
    -- each typing of the tuple is that of an element, in some state
    refine tupleTyping_named fun T hT => ?_
    obtain ⟨n, hn, _, _, hres⟩ := results_mem hns T hT
    exact (ih n hn hres).of_child hn
  | apply l fn arg ihf iha =>
    intro st T st' h
    rw [result_apply] at h
    obtain ⟨fnRaw, st₁, hfn, h⟩ := Infer.bind_ok h
    rw [Infer.lift_bind_apply] at h
    obtain ⟨argRaw, st₂, harg, h⟩ := Infer.bind_ok h
    rw [Infer.lift_bind_apply, Infer.lift_apply, applyTypings_eq] at h
    have hfnNames := (ihf hfn).of_child (n := .apply l fn arg) (by simp [children])
    have hargNames := (iha harg).of_child (n := .apply l fn arg) (by simp [children])
    -- an application uses what its parts use, and a mark of failure uses nothing
    split at h
    · cases h
      exact Typing.named_of_nil rfl (Uses.keys_union
        (Typing.named_iff.mp (instantiate_named hfnNames _)).1
        (Typing.named_iff.mp (instantiate_named hargNames _)).1)
    · cases h
      exact Typing.named_of_nil rfl (by simp [Typing.closed, Table.keys])
  | fn l params body ih =>
    intro st T st' h
    rw [result_fn] at h
    obtain ⟨raw, st₁, hbody, h⟩ := Infer.bind_ok h
    rw [Infer.lift_bind_apply, fnTyping] at h
    obtain ⟨⟨ts, c⟩, st₂, hbind, h⟩ := Infer.bind_ok h
    cases h
    have hnames := (ih hbody).of_child (n := .fn l params body) (by simp [children])
    -- the parameters are bound, and the other names of the body are left
    refine Typing.named_of_nil rfl fun x hx => ?_
    exact (Typing.named_iff.mp (instantiate_named hnames _)).1 x
      (bindParams_keys l params hbind x hx).1
  | decl l name value ih =>
    intro st T st' h
    rw [result_decl] at h
    obtain ⟨raw, st₁, hvalue, h⟩ := Infer.bind_ok h
    cases h
    have hnames := (ih hvalue).of_child (n := .decl l name value) (by simp [children])
    refine Typing.named_iff.mpr ⟨by simp [declTyping, Table.keys], ?_⟩
    rw [declTyping, List.forall_mem_singleton]
    exact ⟨exists_subtree_iff.mpr (Or.inl rfl), hnames⟩
  | ret l value ih =>
    intro st T st' h
    rw [result_ret] at h
    exact (ih h).of_child (by simp [children])
  | block l stmts ih =>
    intro st T st' h
    rw [result_block] at h
    exact blockResult_named
      (fun n hn _ _ _ h => (ih n hn h).of_child (n := .block l stmts) hn)
      (Typing.named_of_nil rfl (by simp [Typing.closed, Table.keys])) h

end Rules

end LetTyping
