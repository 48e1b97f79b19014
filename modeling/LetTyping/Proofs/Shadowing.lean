import Mathlib
import LetTyping.Proofs.Derivation
import LetTyping.Proofs.Fatal
import LetTyping.Proofs.Layout

/-!
# Parameters and the scopes around them

The free names of a declaration are resolved against the blocks around it when the declaration is
reported.  The parameters of the functions in between are not known there: a use of a parameter is
resolved against a declaration of the same name further out, if there is one.  So a parameter that
has the name of such a declaration cannot be renamed without a change of what is reported.

Any other parameter can.  Its uses pass out through all the scopes under the one name as under the
other, and the declarations are reported with the same types.

## Main definitions

* `Tree.declaredAround` — the names that the blocks around a node declare.
* `Unaware` — scopes that do not declare some names.
* `Tree.RenamesParam` — a program and the same program with a parameter renamed.

## Main results

* `Tree.result_declared` — a typing declares the names that its node declares.
* `Tree.beside_renameUses` — under a function, other names for uses make no difference.
* `Tree.Beside.set` — nor does a node make a difference above it.
* `check_renameParam` — **a parameter that hides no declaration can be renamed.**
* `check_renameParam_shadowing` — a parameter that hides one is taken for it.
-/

namespace LetTyping

/-! ### Declared names -/

namespace Tree

variable {α : Type}

/-- The names that the statements declare, if the tree is a block. -/
def scope : Tree α → List String
  | block l stmts => Table.keys (block l stmts).declared
  | _ => []

/-- The names that are declared by the blocks around the node at the end of a path. -/
def declaredAround (t : Tree α) : List Nat → List String
  | [] => []
  | i :: path => t.scope ++ (t.children[i]?).elim [] (declaredAround · path)

theorem declaredAround_cons {t c : Tree α} {i : Nat} (hi : t.children[i]? = some c)
    (path : List Nat) : t.declaredAround (i :: path) = t.scope ++ c.declaredAround path := by
  rw [declaredAround, hi, Option.elim_some]

theorem mem_keys_declaredFrom {ss : List (Tree α)} {d : Table (Tree α)} {x : String}
    (h : x ∈ Table.keys (declaredFrom d ss)) :
    x ∈ Table.keys d ∨ ∃ s ∈ ss, x ∈ Table.keys s.declared := by
  induction ss generalizing d with
  | nil => exact Or.inl h
  | cons s ss ih =>
    rcases ih h with h | ⟨s', hs', h⟩
    · rcases Table.mem_keys_insertAll h with h | h
      · exact Or.inl h
      · exact Or.inr ⟨s, List.mem_cons_self, h⟩
    · exact Or.inr ⟨s', List.mem_cons_of_mem _ hs', h⟩

theorem declaring_of_mem_declared {t : Tree α} {x : String} (h : x ∈ Table.keys t.declared) :
    t.Declaring x := by
  induction t using Tree.induction with
  | decl l name value _ =>
    obtain rfl : x = name := List.mem_singleton.mp h
    exact exists_subtree_iff.mpr (Or.inl rfl)
  | ret l value ih => exact (ih h).of_child (by simp [children])
  | block l stmts ih =>
    obtain ⟨s, hs, h⟩ := (mem_keys_declaredFrom h).resolve_left List.not_mem_nil
    exact (ih s hs h).of_child (t := .block l stmts) hs
  | _ => cases h

theorem declaring_of_mem_declaredAround {t n : Tree α} {path : List Nat} {x : String}
    (hpath : t.get? path = some n) (h : x ∈ t.declaredAround path) : t.Declaring x := by
  induction hpath using pathInduction with
  | here => cases h
  | below t i c path hi _ ih =>
    rw [declaredAround_cons hi, List.mem_append] at h
    rcases h with h | h
    · cases t with
      | block l stmts => exact declaring_of_mem_declared h
      | _ => cases h
    · exact (ih h).of_child (List.mem_of_getElem? hi)

theorem blockResult_declared {ns : List (Tree Span)}
    (ih : ∀ n ∈ ns, ∀ {st T st'}, n.result st = (.ok T, st') →
      Table.keys T.defined = Table.keys n.declared) :
    ∀ {sofar T : Typing} {d : Table (Tree Span)} {st st' : State},
      Table.keys sofar.defined = Table.keys d → blockResult sofar ns st = (.ok T, st') →
      Table.keys T.defined = Table.keys (declaredFrom d ns) := by
  induction ns with
  | nil =>
    intro sofar T d st st' hsofar h
    cases h
    exact hsofar
  | cons n ns ihs =>
    intro sofar T d st st' hsofar h
    rw [List.forall_mem_cons] at ih
    rw [blockResult_cons, Infer.lift_bind_apply] at h
    obtain ⟨raw, st₁, hn, h⟩ := Infer.bind_ok h
    obtain ⟨sofar', st₂, habs, h⟩ := Infer.bind_ok h
    refine ihs ih.2 ?_ h
    -- taking a statement in adds its declarations to those before, whatever is resolved
    obtain ⟨result, out, st₃, -, heq⟩ := absorb_run sofar n.label raw st₁
    rw [heq] at habs
    cases result with
    | error problem => cases habs
    | ok _ =>
      cases habs
      refine Table.keys_insertAll_congr hsofar ?_
      rw [keys_defined_instantiate, ih.1 hn]

/-- **A typing declares the names that its node declares.** -/
theorem result_declared (n : Tree Span) {st : State} {T : Typing} {st' : State}
    (h : n.result st = (.ok T, st')) : Table.keys T.defined = Table.keys n.declared := by
  induction n using Tree.induction generalizing st T st' with
  | int l value =>
    rw [result_int] at h
    cases h
    rfl
  | var l name =>
    rw [result_var] at h
    cases h
    rfl
  | array l elems _ =>
    rw [result_array] at h
    cases h
  | assign l name value _ =>
    rw [result_assign] at h
    cases h
  | tuple l elems _ =>
    rw [result_tuple] at h
    obtain ⟨Ts, st₁, -, h⟩ := Infer.bind_ok h
    cases h
    rfl
  | apply l fn arg _ _ =>
    rw [result_apply] at h
    obtain ⟨fnRaw, st₁, -, h⟩ := Infer.bind_ok h
    rw [Infer.lift_bind_apply] at h
    obtain ⟨argRaw, st₂, -, h⟩ := Infer.bind_ok h
    rw [Infer.lift_bind_apply, Infer.lift_apply, applyTypings_eq] at h
    split at h <;> cases h <;> rfl
  | fn l params body _ =>
    rw [(result_fn_keys h).1]
    rfl
  | decl l name value _ =>
    rw [result_decl] at h
    obtain ⟨raw, st₁, -, h⟩ := Infer.bind_ok h
    cases h
    rfl
  | ret l value ih =>
    rw [result_ret] at h
    exact ih h
  | block l stmts ih =>
    rw [result_block] at h
    exact blockResult_declared ih rfl h

end Tree

/-! ### Scopes that do not declare a name -/

/-- The same scopes, none of which declares one of the names. -/
def Unaware (hidden : List String) (scopes scopes' : List Defined) : Prop :=
  scopes' = scopes ∧ ∀ d ∈ scopes, ∀ x ∈ Table.keys d, x ∉ hidden

theorem sameOutside_refl {hidden : List String} (κ : String → String) {scopes : List Defined}
    (h : ∀ d ∈ scopes, ∀ x ∈ Table.keys d, x ∉ hidden) : SameOutside hidden κ scopes scopes :=
  List.forall₂_same.mpr fun d hd => ⟨rfl, h d hd⟩

theorem admits_unaware (hidden : List String) : Admits id (· ∉ hidden) (Unaware hidden) where
  signature := by
    rintro scopes _ st st' ⟨rfl, -⟩ hst
    exact (admits_sameOutside collapses_id fun _ => rfl).signature
      (sameOutside_refl id fun _ _ _ _ => List.not_mem_nil) hst
  push := by
    rintro scopes _ T hT ⟨rfl, h⟩
    exact ⟨by rw [Typing.renameUses_id], List.forall_mem_cons.mpr ⟨hT, h⟩⟩

/-- Every tree goes beside itself. -/
theorem Tree.beside_self (hidden : List String) (n : Tree Span) :
    n.Beside id (Unaware hidden) n := by
  have hS := admits_sameOutside (ρ := id) collapses_id fun _ => rfl
  refine (beside_of_shape hS n n rfl fun _ _ => List.not_mem_nil).mono ?_
  rintro scopes _ ⟨rfl, -⟩
  exact sameOutside_refl id fun _ _ _ _ => List.not_mem_nil

/-! ### Under the function -/

section Renaming

variable {p q : String}

/-- One name for both names. -/
def merge (p q x : String) : String := if x = q then p else x

theorem collapses_merge (p q : String) : Collapses [p, q] (merge p q) where
  fixes := fun x hx => if_neg fun h => hx (by simp [h])
  keeps := fun x hx => by
    rw [merge]
    split
    · exact List.mem_cons_self
    · exact hx

theorem merge_swap (p q x : String) : merge p q (Equiv.swap p q x) = merge p q x := by
  rw [Equiv.swap_apply_def]
  split
  · next h => simp [merge, h]
  · split
    · next h => simp [merge, h]
    · rfl

/-- The tree does not mention `q` and has no declaration of `p`. -/
structure Tree.Spares (p q : String) (n : Tree Span) : Prop where
  unwritten : ¬n.Mentions q
  undeclared : ¬n.Declaring p

theorem Tree.Spares.child {n c : Tree Span} (h : n.Spares p q) (hc : c ∈ n.children) :
    c.Spares p q :=
  ⟨fun hm => h.unwritten (hm.of_child hc), fun hd => h.undeclared (hd.of_child hc)⟩

theorem Tree.Spares.not_mem {n : Tree Span} (h : n.Spares p q) {x : String} (hx : n.Declaring x) :
    x ∉ [p, q] := by
  intro hmem
  rcases List.mem_pair.mp hmem with rfl | rfl
  · exact h.undeclared hx
  · exact h.unwritten hx.mentions

theorem swap_eq_self_of_not_mem {x : String} (h : x ∉ [p, q]) : Equiv.swap p q x = x :=
  swap_eq_self (fun heq => h (by simp [heq])) fun heq => h (by simp [heq])

/-- **Other names for free uses make no difference** to what is reported, if neither name is
declared. -/
theorem Tree.beside_renameUses (n : Tree Span) (h : n.Spares p q) :
    n.Beside (Equiv.swap p q) (SameOutside [p, q] (merge p q)) (n.renameUses p q) := by
  have hσ : Function.Injective (Equiv.swap p q) := (Equiv.swap p q).injective
  have hS := admits_sameOutside (collapses_merge p q) (merge_swap p q)
  induction n using Tree.induction with
  | int l value => exact .int l l value
  | var l name =>
    have hne : name ≠ q := fun heq => h.unwritten (.here (by simp [ownNames, heq]))
    have hname : (if name = p then q else name) = Equiv.swap p q name := by
      rw [Equiv.swap_apply_def, if_neg hne]
    rw [renameUses, hname]
    exact .var l l name
  | array l elems _ =>
    rw [renameUses]
    exact .array l l
  | assign l name value _ =>
    rw [renameUses]
    exact .assign l l name
  | tuple l elems ih =>
    rw [renameUses, renameUsesList_eq_map]
    refine .tuple l l hσ (List.forall₂_map_right_iff.mpr (List.forall₂_same.mpr fun n hn => ?_))
    exact ih n hn (h.child hn)
  | apply l fn arg ihf iha =>
    rw [renameUses]
    exact .apply l l hσ (ihf (h.child (by simp [children]))) (iha (h.child (by simp [children])))
  | fn l params body ih =>
    rw [renameUses]
    by_cases hmem : p ∈ params
    · -- the uses of the name are bound here; what is below goes beside itself
      rw [if_pos hmem]
      have hS := admits_sameOutside (ρ := id) (collapses_merge p q) fun _ => rfl
      have hself := beside_of_shape hS (.fn l params body) _ rfl fun _ hx => h.not_mem hx
      refine hself.congr fun hres => ?_
      rw [Typing.renameUses_id, result_fn_swap hmem h.unwritten hres]
    · have hparams : params.map (Equiv.swap p q) = params := by
        refine (List.map_congr_left fun x hx => ?_).trans (List.map_id params)
        exact swap_eq_self (fun heq => hmem (heq ▸ hx)) fun heq =>
          h.unwritten (.here (by simpa [ownNames, ← heq]))
      have hfn := Beside.fn l l hσ params (ih (h.child (by simp [children])))
      rw [hparams] at hfn
      rwa [if_neg hmem]
  | decl l name value ih =>
    rw [renameUses]
    exact .decl l l hS name (ih (h.child (by simp [children])))
  | ret l value ih =>
    rw [renameUses]
    exact .ret l l (ih (h.child (by simp [children])))
  | block l stmts ih =>
    rw [renameUses, renameUsesList_eq_map]
    refine .block l l hσ hS (List.forall₂_map_right_iff.mpr (List.forall₂_same.mpr fun n hn => ?_))
      (fun n hn x hx => ?_) fun hres x hx => ?_
    · exact ih n hn (h.child hn)
    · exact swap_eq_self_of_not_mem ((h.child hn).not_mem hx)
    · exact h.not_mem ((result_named _ hres).keys_defined x hx)

/-- A function with another name for a parameter, in scopes that declare neither name. -/
theorem Tree.beside_renameParam {l : Span} {params : List String} {body : Tree Span}
    (hp : p ∈ params) (hdecl : ¬body.Declaring p) (hq : ¬(fn l params body).Mentions q) :
    (fn l params body).Beside id (Unaware [p, q])
      (fn l (params.map fun x => if x = p then q else x) (body.renameUses p q)) := by
  have hbody := beside_renameUses body ⟨fun h => hq (h.of_child (by simp [children])), hdecl⟩
  have hfn := Beside.fn l l (Equiv.swap p q).injective params hbody
  -- above the function neither name is free, so there the typings are the same
  rw [map_swap_params fun h => hq (.here (by simpa [ownNames] using h))]
  refine (hfn.congr fun h => ?_).mono ?_
  · rw [result_fn_swap hp hq h, Typing.renameUses_id]
  · rintro scopes _ ⟨rfl, h⟩
    exact sameOutside_refl _ h

end Renaming

/-! ### Above the function -/

namespace Tree

variable {hidden : List String}

/-- A child that goes beside its replacement, below a node that declares no hidden name. -/
theorem Beside.setChild {t c c' : Tree Span} {i : Nat} (hi : t.children[i]? = some c)
    (h : c.Beside id (Unaware hidden) c') (hscope : ∀ x ∈ t.scope, x ∉ hidden) :
    t.Beside id (Unaware hidden) (t.setChild i c') := by
  have hid : Function.Injective (id : String → String) := Function.injective_id
  obtain ⟨hlt, -⟩ := List.getElem?_eq_some_iff.mp hi
  cases t with
  | int _ _ | var _ _ => exact absurd hlt (by simp [children])
  | tuple l es => exact .tuple l l hid (forall₂_set (beside_self hidden) hi h)
  | array l es => exact .array l l
  | block l ss =>
    refine .block l l hid (admits_unaware hidden) (forall₂_set (beside_self hidden) hi h)
      (fun _ _ _ _ => rfl) fun hres x hx => hscope x ?_
    -- the block declares what its typing declares, and so no hidden name
    rwa [scope, ← result_declared _ hres]
  | apply l f a =>
    have htwo : i < 2 := hlt
    obtain rfl | rfl : i = 0 ∨ i = 1 := by omega
    · obtain rfl : f = c := Option.some.inj hi
      exact .apply l l hid h (beside_self hidden a)
    · obtain rfl : a = c := Option.some.inj hi
      exact .apply l l hid (beside_self hidden f) h
  | fn l ps b =>
    obtain rfl : i = 0 := Nat.lt_one_iff.mp hlt
    obtain rfl : b = c := Option.some.inj hi
    have hfn := Beside.fn l l hid ps h
    rwa [List.map_id] at hfn
  | decl l x v =>
    obtain rfl : i = 0 := Nat.lt_one_iff.mp hlt
    obtain rfl : v = c := Option.some.inj hi
    exact .decl l l (admits_unaware hidden) x h
  | assign l x v =>
    obtain rfl : i = 0 := Nat.lt_one_iff.mp hlt
    exact .assign l l x
  | ret l v =>
    obtain rfl : i = 0 := Nat.lt_one_iff.mp hlt
    obtain rfl : v = c := Option.some.inj hi
    exact .ret l l h

/-- A node that goes beside its replacement, where no block around it declares a hidden name. -/
theorem Beside.set {t n n' : Tree Span} {path : List Nat} (hpath : t.get? path = some n)
    (h : n.Beside id (Unaware hidden) n') (hscope : ∀ x ∈ t.declaredAround path, x ∉ hidden) :
    t.Beside id (Unaware hidden) (t.set n' path) := by
  induction hpath using pathInduction with
  | here => exact h
  | below t i c path hi _ ih =>
    rw [declaredAround_cons hi, List.forall_mem_append] at hscope
    rw [set_cons hi]
    exact .setChild hi (ih hscope.2) hscope.1

end Tree

/-! ### Programs -/

/-- The second program is the first one with the parameter `p` of the function at a path renamed to
`q`, together with its uses.  The body of the function has no declaration of `p`, and `q` is written
nowhere.  Spans may differ. -/
structure Tree.RenamesParam (p q : String) (path : List Nat) (t t' : Tree Span) : Prop where
  renamed : ∃ l params body, t.get? path = some (.fn l params body) ∧ p ∈ params ∧
    ¬body.Declaring p ∧ t'.shape = (t.set (.fn l (params.map fun x => if x = p then q else x)
      (body.renameUses p q)) path).shape
  unwritten : ¬t.Mentions q

theorem exists_check_of_entries [Alphabet] {withPrelude : Bool} {source : String} {t : Tree Span}
    {entries : List (String × String)} (hparse : parse source = .ok t)
    (h : ((checkTree withPrelude t {}).1.toOption.map fun c => c.signatures.map Signature.entry) =
      some entries) :
    ∃ c events, check withPrelude source = (.ok c, events) ∧
      c.signatures.map Signature.entry = entries := by
  obtain ⟨c, hc, hentries⟩ := Option.map_eq_some_iff.mp h
  exact ⟨c, _, check_of_parse hparse hc, hentries⟩

/-- **A parameter that hides no declaration can be renamed**, together with its uses, to a name that
is written nowhere.  All declarations are reported as before, in the same order and with the same
types.  Neither name may be builtin, and no block around the function may declare the parameter. -/
theorem check_renameParam [Alphabet] {withPrelude : Bool} {source source' : String}
    {t t' : Tree Span} {path : List Nat} {p q : String} {c : Checked} {events : List Event}
    (hparse : parse source = .ok t) (hparse' : parse source' = .ok t')
    (hrename : t.RenamesParam p q path t')
    (hbuiltin : withPrelude = true → p ∉ builtinNames ∧ q ∉ builtinNames)
    (hscope : p ∉ t.declaredAround path) (hcheck : check withPrelude source = (.ok c, events)) :
    ∃ c' events', check withPrelude source' = (.ok c', events') ∧
      c'.signatures.map Signature.entry = c.signatures.map Signature.entry := by
  obtain ⟨l, params, body, hfn, hp, hdecl, hshape⟩ := hrename.renamed
  have hq : ¬(Tree.fn l params body).Mentions q := fun h => hrename.unwritten (h.of_get? hfn)
  have hclear : ∀ x ∈ t.declaredAround path, x ∉ [p, q] := by
    intro x hx hmem
    rcases List.mem_pair.mp hmem with rfl | rfl
    · exact hscope hx
    · exact hrename.unwritten (Tree.declaring_of_mem_declaredAround hfn hx).mentions
  have hbuiltins : ∀ st, Unaware [p, q] [(builtins withPrelude st).1]
      [(builtins withPrelude st).1] := by
    refine fun st => ⟨rfl, List.forall_mem_singleton.mpr fun x hx hmem => ?_⟩
    obtain ⟨hprelude, hx⟩ := (builtins_closed withPrelude st).2 x hx
    rcases List.mem_pair.mp hmem with rfl | rfl
    · exact (hbuiltin hprelude).1 hx
    · exact (hbuiltin hprelude).2 hx
  have hchecked : (checkTree withPrelude t {}).1.toOption = some c := by
    rw [← check_toOption hparse, hcheck]
    rfl
  rcases hrun : checkTree withPrelude t {} with ⟨problem | _, st⟩ <;> rw [hrun] at hchecked <;>
    cases hchecked
  -- renaming keeps the spans of the first program; the second one is of the same shape
  obtain ⟨c₁, st₁, hrun₁, heq₁⟩ := (Tree.Beside.set hfn (Tree.beside_renameParam hp hdecl hq)
    hclear).checked hbuiltins hrun
  obtain ⟨c', st', hrun', heq'⟩ := checkTree_of_shape hshape hrun₁
  exact ⟨c', _, check_of_parse hparse' (by rw [hrun']; rfl), heq'.trans heq₁⟩

section

set_option maxRecDepth 1024

/-- A parameter that another function has too, and that a block elsewhere declares, gets a longer
name. -/
theorem check_renameParam_elsewhere :
    ∃ c events c' events',
      check true "fn(x) { let y = (x, fn(x) x) }; fn(k) { let x = k }" = (.ok c, events) ∧
      check true "fn(one) { let y = (one, fn(x) x) }; fn(k) { let x = k }" = (.ok c', events') ∧
      c'.signatures.map Signature.entry = c.signatures.map Signature.entry := by
  let t : Tree Span := .block ⟨0, 51⟩
    [.fn ⟨0, 30⟩ ["x"] (.block ⟨6, 30⟩ [.decl ⟨8, 28⟩ "y"
        (.tuple ⟨16, 28⟩ [.var ⟨17, 18⟩ "x", .fn ⟨20, 27⟩ ["x"] (.var ⟨26, 27⟩ "x")])]),
      .fn ⟨32, 51⟩ ["k"] (.block ⟨38, 51⟩ [.decl ⟨40, 49⟩ "x" (.var ⟨48, 49⟩ "k")])]
  let t' : Tree Span := .block ⟨0, 55⟩
    [.fn ⟨0, 34⟩ ["one"] (.block ⟨8, 34⟩ [.decl ⟨10, 32⟩ "y"
        (.tuple ⟨18, 32⟩ [.var ⟨19, 22⟩ "one", .fn ⟨24, 31⟩ ["x"] (.var ⟨30, 31⟩ "x")])]),
      .fn ⟨36, 55⟩ ["k"] (.block ⟨42, 55⟩ [.decl ⟨44, 53⟩ "x" (.var ⟨52, 53⟩ "k")])]
  have hparse : parse "fn(x) { let y = (x, fn(x) x) }; fn(k) { let x = k }" = .ok t := by cbv
  have hparse' : parse "fn(one) { let y = (one, fn(x) x) }; fn(k) { let x = k }" = .ok t' := by cbv
  have hrename : t.RenamesParam "x" "one" [0] t' :=
    ⟨⟨_, _, _, rfl, by decide, by decide +kernel, rfl⟩, by decide +kernel⟩
  have hscope : "x" ∉ t.declaredAround [0] := by decide +kernel
  have hentries : ((checkTree true t {}).1.toOption.map fun c => c.signatures.map Signature.entry) =
      some [("y", "(a, (b) -> b)"), ("x", "a")] := by decide +kernel
  clear_value t t'
  obtain ⟨c, events, hcheck, -⟩ := exists_check_of_entries hparse hentries
  obtain ⟨c', events', hcheck', heq⟩ :=
    check_renameParam hparse hparse' hrename (fun _ => by decide +kernel) hscope hcheck
  exact ⟨c, events, c', events', hcheck, hcheck', heq⟩

/-- **A parameter that hides a declaration is taken for it.**  The type of a declaration in the body
of the function is reported with the type of the hidden declaration, or of the hidden builtin, in
the place of the parameter's. -/
theorem check_renameParam_shadowing :
    (∃ t t' c events c' events',
      parse "let x = 1; let f = fn(x) { let y = (x, 1); y }" = .ok t ∧
      parse "let x = 1; let f = fn(k) { let y = (k, 1); y }" = .ok t' ∧
      t.RenamesParam "x" "k" [1, 0] t' ∧ "x" ∉ builtinNames ∧ "k" ∉ builtinNames ∧
      check true "let x = 1; let f = fn(x) { let y = (x, 1); y }" = (.ok c, events) ∧
      check true "let x = 1; let f = fn(k) { let y = (k, 1); y }" = (.ok c', events') ∧
      c.signatures.map Signature.entry =
        [("x", "Int"), ("f", "(a) -> (a, Int)"), ("y", "(Int, Int)")] ∧
      c'.signatures.map Signature.entry =
        [("x", "Int"), ("f", "(a) -> (a, Int)"), ("y", "(a, Int)")]) ∧
    ∃ t t' c events c' events',
      parse "fn(fst) { let y = fst }" = .ok t ∧ parse "fn(k) { let y = k }" = .ok t' ∧
      t.RenamesParam "fst" "k" [0] t' ∧ "fst" ∉ t.declaredAround [0] ∧ "k" ∉ builtinNames ∧
      check true "fn(fst) { let y = fst }" = (.ok c, events) ∧
      check true "fn(k) { let y = k }" = (.ok c', events') ∧
      c.signatures.map Signature.entry = [("y", "((a, b)) -> a")] ∧
      c'.signatures.map Signature.entry = [("y", "a")] := by
  constructor
  · let t (p : String) : Tree Span := .block ⟨0, 46⟩ [.decl ⟨0, 9⟩ "x" (.int ⟨8, 9⟩ 1),
      .decl ⟨11, 46⟩ "f" (.fn ⟨19, 46⟩ [p] (.block ⟨25, 46⟩ [.decl ⟨27, 41⟩ "y"
        (.tuple ⟨35, 41⟩ [.var ⟨36, 37⟩ p, .int ⟨39, 40⟩ 1]), .var ⟨43, 44⟩ "y"]))]
    have hparse : parse "let x = 1; let f = fn(x) { let y = (x, 1); y }" = .ok (t "x") := by cbv
    have hparse' : parse "let x = 1; let f = fn(k) { let y = (k, 1); y }" = .ok (t "k") := by cbv
    have hrename : (t "x").RenamesParam "x" "k" [1, 0] (t "k") :=
      ⟨⟨_, _, _, rfl, by decide, by decide +kernel, rfl⟩, by decide +kernel⟩
    have hentries : ((checkTree true (t "x") {}).1.toOption.map fun c =>
        c.signatures.map Signature.entry) =
          some [("x", "Int"), ("f", "(a) -> (a, Int)"), ("y", "(Int, Int)")] := by decide +kernel
    have hentries' : ((checkTree true (t "k") {}).1.toOption.map fun c =>
        c.signatures.map Signature.entry) =
          some [("x", "Int"), ("f", "(a) -> (a, Int)"), ("y", "(a, Int)")] := by decide +kernel
    clear_value t
    obtain ⟨c, events, hcheck, heq⟩ := exists_check_of_entries hparse hentries
    obtain ⟨c', events', hcheck', heq'⟩ := exists_check_of_entries hparse' hentries'
    exact ⟨t "x", t "k", c, events, c', events', hparse, hparse', hrename, by decide +kernel,
      by decide +kernel, hcheck, hcheck', heq, heq'⟩
  · let t : Tree Span := .block ⟨0, 23⟩ [.fn ⟨0, 23⟩ ["fst"]
      (.block ⟨8, 23⟩ [.decl ⟨10, 21⟩ "y" (.var ⟨18, 21⟩ "fst")])]
    let t' : Tree Span := .block ⟨0, 19⟩ [.fn ⟨0, 19⟩ ["k"]
      (.block ⟨6, 19⟩ [.decl ⟨8, 17⟩ "y" (.var ⟨16, 17⟩ "k")])]
    have hparse : parse "fn(fst) { let y = fst }" = .ok t := by cbv
    have hparse' : parse "fn(k) { let y = k }" = .ok t' := by cbv
    have hrename : t.RenamesParam "fst" "k" [0] t' :=
      ⟨⟨_, _, _, rfl, by decide, by decide +kernel, rfl⟩, by decide +kernel⟩
    have hscope : "fst" ∉ t.declaredAround [0] := by decide +kernel
    have hentries : ((checkTree true t {}).1.toOption.map fun c =>
        c.signatures.map Signature.entry) = some [("y", "((a, b)) -> a")] := by decide +kernel
    have hentries' : ((checkTree true t' {}).1.toOption.map fun c =>
        c.signatures.map Signature.entry) = some [("y", "a")] := by decide +kernel
    clear_value t t'
    obtain ⟨c, events, hcheck, heq⟩ := exists_check_of_entries hparse hentries
    obtain ⟨c', events', hcheck', heq'⟩ := exists_check_of_entries hparse' hentries'
    exact ⟨t, t', c, events, c', events', hparse, hparse', hrename, hscope, by decide +kernel,
      hcheck, hcheck', heq, heq'⟩

end

end LetTyping
