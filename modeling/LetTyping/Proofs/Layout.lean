import LetTyping.Proofs.Abreast
import LetTyping.Proofs.Checking

/-!
# Layout does not matter

Two trees are inferred side by side, node by node.  The nodes are of the same kinds; their positions
may differ, and so may the names of some uses.  Then the same types are found, and the trees that
are left behind report the same declarations with the same types.

What a declaration is reported with depends on the scopes around it.  Which pairs of stacks of
scopes are compared is left open: they have to lead to the same signatures, and they have to stay
comparable when the declarations of a block are put on top.

## Main definitions

* `Reports` — two trees report the same, for related scopes.
* `Admits` — a relation between stacks of scopes under which signatures are the same.
* `Tree.Beside` — two trees are inferred side by side and report the same.

## Main results

* `Tree.Beside.tuple`, `Tree.Beside.apply`, … — nodes over nodes that go side by side do so.
* `Tree.beside_of_shape` — trees of the same shape go side by side.
* `Tree.Beside.checked` — the checks of such trees report the same.
* `checkTree_of_shape` — **the layout of a program has no influence on what is reported.**
-/

namespace LetTyping

variable {ρ : String → String} {D : String → Prop} {S : List Defined → List Defined → Prop}

/-! ### Reports -/

/-- Two trees report the same, for scopes that are related. -/
structure Reports (S : List Defined → List Defined → Prop) (t t' : Tree Mark) : Prop where
  run : ∀ {scopes scopes' : List Defined} {st st' : State}, S scopes scopes' → st.Matches st' →
    (signatures scopes' t' st').1.map Signature.entry =
        (signatures scopes t st).1.map Signature.entry ∧
      (signatures scopes t st).2.Matches (signatures scopes' t' st').2

/-- Signatures are the same in scopes that are related, also when declarations of names in `D` are
put on top. -/
structure Admits (ρ : String → String) (D : String → Prop)
    (S : List Defined → List Defined → Prop) : Prop where
  signature : ∀ {scopes scopes' : List Defined} {st st' : State}, S scopes scopes' →
    st.Matches st' → ∀ (span span' : Span) (name : String) (T : Typing),
      (signature scopes' span' name (T.renameUses ρ) st').1.entry =
          (signature scopes span name T st).1.entry ∧
        (signature scopes span name T st).2.Matches
          (signature scopes' span' name (T.renameUses ρ) st').2
  push : ∀ {scopes scopes' : List Defined} {T : Typing}, (∀ x ∈ Table.keys T.defined, D x) →
    S scopes scopes' → S (T.defined :: scopes) ((T.renameUses ρ).defined :: scopes')

namespace Reports

variable {t t' u u' : Tree Mark} {ts ts' : List (Tree Mark)} (m m' : Mark)

theorem mono {S' : List Defined → List Defined → Prop} (h : Reports S t t')
    (hS : ∀ scopes scopes', S' scopes scopes' → S scopes scopes') : Reports S' t t' :=
  ⟨fun hscopes hst => h.run (hS _ _ hscopes) hst⟩

theorem int (value : Int) : Reports S (.int m value) (.int m' value) :=
  ⟨fun _ hst => ⟨rfl, hst⟩⟩

theorem var (name name' : String) : Reports S (.var m name) (.var m' name') :=
  ⟨fun _ hst => ⟨rfl, hst⟩⟩

theorem list (h : List.Forall₂ (Reports S) ts ts') {scopes scopes' : List Defined} {st st' : State}
    (hscopes : S scopes scopes') (hst : st.Matches st') :
    (signaturesList scopes' ts' st').1.map Signature.entry =
        (signaturesList scopes ts st).1.map Signature.entry ∧
      (signaturesList scopes ts st).2.Matches (signaturesList scopes' ts' st').2 := by
  induction h generalizing st st' with
  | nil => exact ⟨rfl, hst⟩
  | cons ht _ ih =>
    obtain ⟨hfirst, hst₁⟩ := ht.run hscopes hst
    obtain ⟨hrest, hst₂⟩ := ih hst₁
    rw [signaturesList, signaturesList]
    simp only [State.bind_apply]
    refine ⟨?_, hst₂⟩
    change List.map Signature.entry (_ ++ _) = List.map Signature.entry (_ ++ _)
    rw [List.map_append, List.map_append, hfirst, hrest]

theorem tuple (h : List.Forall₂ (Reports S) ts ts') : Reports S (.tuple m ts) (.tuple m' ts') := by
  refine ⟨fun {scopes scopes' st st'} hscopes hst => ?_⟩
  rw [signatures, signatures]
  exact list h hscopes hst

theorem apply (h : Reports S t t') (h' : Reports S u u') :
    Reports S (.apply m t u) (.apply m' t' u') := by
  refine ⟨fun {scopes scopes' st st'} hscopes hst => ?_⟩
  obtain ⟨hfirst, hst₁⟩ := h.run hscopes hst
  obtain ⟨hrest, hst₂⟩ := h'.run hscopes hst₁
  rw [signatures, signatures]
  simp only [State.bind_apply]
  refine ⟨?_, hst₂⟩
  change List.map Signature.entry (_ ++ _) = List.map Signature.entry (_ ++ _)
  rw [List.map_append, List.map_append, hfirst, hrest]

theorem fn (params params' : List String) (h : Reports S t t') :
    Reports S (.fn m params t) (.fn m' params' t') := by
  refine ⟨fun {scopes scopes' st st'} hscopes hst => ?_⟩
  rw [signatures, signatures]
  exact h.run hscopes hst

theorem ret (h : Reports S t t') : Reports S (.ret m t) (.ret m' t') := by
  refine ⟨fun {scopes scopes' st st'} hscopes hst => ?_⟩
  rw [signatures, signatures]
  exact h.run hscopes hst

/-- A declaration is reported before those in its value. -/
theorem decl (hS : Admits ρ D S) (name : String) (h : Reports S t t') {T : Typing}
    (ht : t.label.typing = some T) (ht' : t'.label.typing = some (T.renameUses ρ)) :
    Reports S (.decl m name t) (.decl m' name t') := by
  refine ⟨fun {scopes scopes' st st'} hscopes hst => ?_⟩
  obtain ⟨hown, hst₁⟩ := hS.signature hscopes hst m.span m'.span name T
  obtain ⟨hrest, hst₂⟩ := h.run hscopes hst₁
  rw [signatures, signatures, ht, ht']
  simp only [State.bind_apply]
  refine ⟨?_, hst₂⟩
  change List.map Signature.entry ([_] ++ _) = List.map Signature.entry ([_] ++ _)
  rw [List.map_append, List.map_append]
  exact congrArg₂ (· ++ ·) (congrArg ([·]) hown) hrest

theorem block (hS : Admits ρ D S) (h : List.Forall₂ (Reports S) ts ts') {T : Typing}
    (hT : ∀ x ∈ Table.keys T.defined, D x) (hm : m.typing = some T)
    (hm' : m'.typing = some (T.renameUses ρ)) : Reports S (.block m ts) (.block m' ts') := by
  refine ⟨fun {scopes scopes' st st'} hscopes hst => ?_⟩
  rw [signatures, signatures, hm, hm']
  exact list h (hS.push hT hscopes) hst

end Reports

/-! ### Inference -/

/-- Two results with the trees left behind, in states that match. -/
inductive LeftAbreast {α τ : Type} (R : α → α → Prop) (Q : τ → τ → Prop) :
    Outcome α τ × State → Outcome α τ × State → Prop
  | ok {a a' t t' st st'} : R a a' → Q t t' → st.Matches st' →
      LeftAbreast R Q ((.ok a, t), st) ((.ok a', t'), st')
  | error {e e' t t' st st'} : LeftAbreast R Q ((.error e, t), st) ((.error e', t'), st')

/-- Two trees are inferred side by side, with other names for uses, and report the same. -/
structure Tree.Beside (ρ : String → String) (S : List Defined → List Defined → Prop)
    (n n' : Tree Span) : Prop where
  run : ∀ {st st' : State}, st.Matches st' →
    LeftAbreast (fun T T' => T' = T.renameUses ρ) (Reports S) (infer n.unmarked st)
      (infer n'.unmarked st')

theorem inferAll_beside {ns ns' : List (Tree Span)} (h : List.Forall₂ (Tree.Beside ρ S) ns ns') :
    ∀ {st st' : State}, st.Matches st' →
      LeftAbreast (fun Ts Ts' => Ts' = Ts.map (Typing.renameUses ρ)) (List.Forall₂ (Reports S))
        (inferAll (ns.map Tree.unmarked) st) (inferAll (ns'.map Tree.unmarked) st') := by
  induction h with
  | nil => exact fun hst => .ok rfl .nil hst
  | @cons n n' ns ns' hn _ ih =>
    intro st st' hst
    have h₁ := hn.run hst
    rw [List.map_cons, List.map_cons, inferAll_cons, inferAll_cons]
    generalize infer n.unmarked st = x at h₁ ⊢
    generalize infer n'.unmarked st' = x' at h₁ ⊢
    cases h₁ with
    | error => exact .error
    | @ok _ _ _ _ st₁ st₁' hT ht hst₁ =>
      -- the states match after each element, so the next one starts alike
      have h₂ := ih hst₁
      simp only
      generalize inferAll (ns.map Tree.unmarked) st₁ = y at h₂ ⊢
      generalize inferAll (ns'.map Tree.unmarked) st₁' = y' at h₂ ⊢
      cases h₂ with
      | error => exact .error
      | ok hTs hts hst₂ =>
        refine .ok ?_ (.cons ht hts) hst₂
        rw [hT, hTs, List.map_cons]

theorem inferStatements_beside (hρ : ρ.Injective) {ns ns' : List (Tree Span)}
    (h : List.Forall₂ (Tree.Beside ρ S) ns ns')
    (hnames : ∀ n ∈ ns, ∀ x, n.Declaring x → ρ x = x) :
    ∀ {sofar : Typing} {st st' : State}, (sofar.Named (fun _ => True) fun x => ρ x = x) →
      st.Matches st' →
      LeftAbreast (fun T T' => T' = T.renameUses ρ) (List.Forall₂ (Reports S))
        (inferStatements sofar (ns.map Tree.unmarked) st)
        (inferStatements (sofar.renameUses ρ) (ns'.map Tree.unmarked) st') := by
  induction h with
  | nil => exact fun _ hst => .ok rfl .nil hst
  | @cons n n' ns ns' hn _ ih =>
    intro sofar st st' hsofar hst
    rw [List.forall_mem_cons] at hnames
    have h₁ := hn.run (hst.logged (.statement n.unmarked.kind n.unmarked.label.span.start)
      (.statement n'.unmarked.kind n'.unmarked.label.span.start))
    rw [List.map_cons, List.map_cons, inferStatements_cons, inferStatements_cons]
    -- the result itself is needed: it says which names the statement declares
    rcases hres : infer n.unmarked _ with ⟨⟨problem | raw, t⟩, st₁⟩ <;> rw [hres] at h₁ <;>
      generalize infer n'.unmarked _ = x' at h₁ ⊢ <;> cases h₁
    · exact .error
    · rename_i raw' t' st₁' hT ht hst₁
      subst hT
      have hraw : raw.Named (fun _ => True) fun x => ρ x = x :=
        (Tree.result_named n (Tree.result_of_infer hres)).imp (fun _ _ => trivial) hnames.1
      have h₂ := absorb_abreast hρ hsofar.keys_defined hraw.keys_defined t.label.span
        t'.label.span hst₁
      simp only
      rcases habs : absorb sofar t.label.span raw st₁ with ⟨problem | sofar₁, st₂⟩ <;>
        rw [habs] at h₂ <;> generalize absorb (sofar.renameUses ρ) _ _ _ = y' at h₂ ⊢ <;> cases h₂
      · exact .error
      · rename_i st₂' sofar₁' hsofar₁ hst₂
        subst hsofar₁
        have h₃ := ih hnames.2 (absorb_named hsofar hraw habs) hst₂
        simp only
        generalize inferStatements sofar₁ _ st₂ = z at h₃ ⊢
        generalize inferStatements (sofar₁.renameUses ρ) _ _ = z' at h₃ ⊢
        cases h₃ with
        | error => exact .error
        | ok hT hts hst₃ => exact .ok hT (.cons ht hts) hst₃

namespace Tree

namespace Beside

variable {n n' c c' : Tree Span} {ns ns' : List (Tree Span)} (l l' : Span)

theorem mono {S' : List Defined → List Defined → Prop} (h : Beside ρ S n n')
    (hS : ∀ scopes scopes', S' scopes scopes' → S scopes scopes') : Beside ρ S' n n' := by
  refine ⟨fun {st st'} hst => ?_⟩
  have h₁ := h.run hst
  generalize infer n.unmarked st = x at h₁ ⊢
  generalize infer n'.unmarked st' = x' at h₁ ⊢
  cases h₁ with
  | error => exact .error
  | ok hT ht hst => exact .ok hT (ht.mono hS) hst

/-- Other names for uses that do not occur in the typing make no difference. -/
theorem congr {ρ' : String → String} (h : Beside ρ S n n')
    (hρ : ∀ {st T st'}, n.result st = (.ok T, st') → T.renameUses ρ = T.renameUses ρ') :
    Beside ρ' S n n' := by
  refine ⟨fun {st st'} hst => ?_⟩
  have h₁ := h.run hst
  rcases hres : infer n.unmarked st with ⟨⟨problem | T, t⟩, st₁⟩ <;> rw [hres] at h₁ <;>
    generalize infer n'.unmarked st' = x' at h₁ ⊢ <;> cases h₁
  · exact .error
  · rename_i T' t' st₁' hT ht hst₁
    exact .ok (hT.trans (hρ (result_of_infer hres))) ht hst₁

/-! ### Nodes -/

theorem int (value : Int) : Beside ρ S (.int l value) (.int l' value) := by
  refine ⟨fun {st st'} hst => ?_⟩
  rw [unmarked_int, unmarked_int, infer_int rfl, infer_int rfl]
  exact .ok rfl (Reports.int _ _ value) hst

theorem var (name : String) : Beside ρ S (.var l name) (.var l' (ρ name)) := by
  refine ⟨fun {st st'} hst => ?_⟩
  rw [unmarked_var, unmarked_var, infer_var rfl, infer_var rfl, hst.count]
  exact .ok rfl (Reports.var _ _ name (ρ name)) hst.next

theorem array : Beside ρ S (.array l ns) (.array l' ns') := by
  refine ⟨fun {st st'} hst => ?_⟩
  rw [unmarked_array, unmarked_array, infer_array rfl, infer_array rfl]
  exact .error

theorem assign (name : String) : Beside ρ S (.assign l name n) (.assign l' name n') := by
  refine ⟨fun {st st'} hst => ?_⟩
  rw [unmarked_assign, unmarked_assign, infer_assign rfl, infer_assign rfl]
  exact .error

theorem tuple (hρ : ρ.Injective) (h : List.Forall₂ (Beside ρ S) ns ns') :
    Beside ρ S (.tuple l ns) (.tuple l' ns') := by
  refine ⟨fun {st st'} hst => ?_⟩
  have h₁ := inferAll_beside h hst
  rw [unmarked_tuple, unmarked_tuple, infer_tuple rfl, infer_tuple rfl]
  generalize inferAll (ns.map unmarked) st = x at h₁ ⊢
  generalize inferAll (ns'.map unmarked) st' = x' at h₁ ⊢
  cases h₁ with
  | error => exact .error
  | ok hTs hts hst₁ =>
    subst hTs
    exact .ok (tupleTyping_renameUses hρ _) (Reports.tuple _ _ hts) hst₁

theorem apply (hρ : ρ.Injective) (h : Beside ρ S n n') (h' : Beside ρ S c c') :
    Beside ρ S (.apply l n c) (.apply l' n' c') := by
  refine ⟨fun {st st'} hst => ?_⟩
  have h₁ := h.run hst
  rw [unmarked_apply, unmarked_apply, infer_apply rfl, infer_apply rfl]
  generalize infer n.unmarked st = x at h₁ ⊢
  generalize infer n'.unmarked st' = x' at h₁ ⊢
  cases h₁ with
  | error => exact .error
  | @ok fnRaw _ _ _ st₁ st₁' hT ht hst₁ =>
    subst hT
    -- the typings agree up to names, so their copies do, over the same new variables
    obtain ⟨hcopy, hst₂⟩ := hst₁.instantiate (ρ := ρ) fnRaw
    have h₂ := h'.run hst₂
    simp only
    generalize infer c.unmarked _ = y at h₂ ⊢
    generalize infer c'.unmarked _ = y' at h₂ ⊢
    cases h₂ with
    | error => exact .error
    | @ok argRaw _ _ _ st₃ st₃' hU hu hst₃ =>
      subst hU
      obtain ⟨hcopy', hst₄⟩ := hst₃.instantiate (ρ := ρ) argRaw
      obtain ⟨hV, hst₅⟩ := applyTypings_abreast hρ l l' fnRaw (instantiate fnRaw st₁).1 argRaw
        (instantiate argRaw st₃).1 hst₄
      -- the copies under other names are the other names for the copies
      rw [← hcopy, ← hcopy'] at hV hst₅
      exact .ok hV (Reports.apply _ _ ht hu) hst₅

/-- A function with other names for its parameters. -/
theorem fn (hρ : ρ.Injective) (params : List String) (h : Beside ρ S n n') :
    Beside ρ S (.fn l params n) (.fn l' (params.map ρ) n') := by
  refine ⟨fun {st st'} hst => ?_⟩
  have h₁ := h.run hst
  rw [unmarked_fn, unmarked_fn, infer_fn rfl, infer_fn rfl]
  generalize infer n.unmarked st = x at h₁ ⊢
  generalize infer n'.unmarked st' = x' at h₁ ⊢
  cases h₁ with
  | error => exact .error
  | @ok raw _ _ _ st₁ st₁' hT ht hst₁ =>
    subst hT
    obtain ⟨hcopy, hst₂⟩ := hst₁.instantiate (ρ := ρ) raw
    -- the parameters are renamed together with their uses
    have h₂ := fnTyping_abreast hρ l l' params (instantiate raw st₁).1 hst₂
    rw [← hcopy] at h₂
    simp only
    generalize fnTyping l params _ _ = y at h₂ ⊢
    generalize fnTyping l' (params.map ρ) _ _ = y' at h₂ ⊢
    cases h₂ with
    | error _ => exact .error
    | ok hU hst₃ => exact .ok hU (Reports.fn _ _ _ _ ht) hst₃

theorem ret (h : Beside ρ S n n') : Beside ρ S (.ret l n) (.ret l' n') := by
  refine ⟨fun {st st'} hst => ?_⟩
  have h₁ := h.run hst
  rw [unmarked_ret, unmarked_ret, infer_ret rfl, infer_ret rfl]
  generalize infer n.unmarked st = x at h₁ ⊢
  generalize infer n'.unmarked st' = x' at h₁ ⊢
  cases h₁ with
  | error => exact .error
  | ok hT ht hst₁ => exact .ok hT (Reports.ret _ _ ht) hst₁

theorem decl (hS : Admits ρ D S) (name : String) (h : Beside ρ S n n') :
    Beside ρ S (.decl l name n) (.decl l' name n') := by
  refine ⟨fun {st st'} hst => ?_⟩
  have h₁ := h.run hst
  have hlabel := infer_label n.unmarked st
  have hlabel' := infer_label n'.unmarked st'
  rw [unmarked_decl, unmarked_decl, infer_decl rfl, infer_decl rfl]
  generalize infer n.unmarked st = x at h₁ hlabel ⊢
  generalize infer n'.unmarked st' = x' at h₁ hlabel' ⊢
  cases h₁ with
  | error => exact .error
  | ok hT ht hst₁ =>
    subst hT
    exact .ok rfl (Reports.decl _ _ hS name ht hlabel hlabel') hst₁

theorem block (hρ : ρ.Injective) (hS : Admits ρ D S) (h : List.Forall₂ (Beside ρ S) ns ns')
    (hnames : ∀ n ∈ ns, ∀ x, n.Declaring x → ρ x = x)
    (hD : ∀ {st T st'}, (Tree.block l ns).result st = (.ok T, st') →
      ∀ x ∈ Table.keys T.defined, D x) :
    Beside ρ S (.block l ns) (.block l' ns') := by
  refine ⟨fun {st st'} hst => ?_⟩
  have hunit : (Typing.closed .unit).Named (fun _ => True) fun x => ρ x = x :=
    Typing.named_of_nil rfl fun _ _ => trivial
  -- a block starts with nothing, which has no names to be renamed
  have h₁ : LeftAbreast (fun T T' => T' = T.renameUses ρ) (List.Forall₂ (Reports S))
      (inferStatements (.closed .unit) (ns.map unmarked) st)
      (inferStatements (.closed .unit) (ns'.map unmarked) st') :=
    inferStatements_beside hρ h hnames hunit hst
  rw [unmarked_block, unmarked_block, infer_block rfl, infer_block rfl]
  rcases hres : inferStatements (.closed .unit) (ns.map unmarked) st with
    ⟨⟨problem | T, ts⟩, st₁⟩ <;> rw [hres] at h₁ <;>
    generalize inferStatements (.closed .unit) (ns'.map unmarked) st' = x' at h₁ ⊢ <;> cases h₁
  · exact .error
  · rename_i T' ts' st₁' hT hts hst₁
    subst hT
    -- what the block declares is admitted by the scopes, so reports inside it stay alike
    have hkeys := hD (by rw [result_block, blockResult, hres])
    exact .ok rfl (Reports.block _ _ hS hts hkeys rfl rfl) hst₁

end Beside

/-! ### Trees of the same shape -/

/-- Trees of the same shapes, one by one. -/
theorem forall₂_of_shape {R : Tree Span → Tree Span → Prop} {ns ns' : List (Tree Span)}
    (hshape : ns'.map shape = ns.map shape) (h : ∀ n ∈ ns, ∀ n', n'.shape = n.shape → R n n') :
    List.Forall₂ R ns ns' := by
  induction ns generalizing ns' with
  | nil =>
    rw [List.map_eq_nil_iff.mp hshape]
    exact .nil
  | cons n ns ih =>
    rw [List.forall_mem_cons] at h
    obtain ⟨n', ns', rfl, hn, hns⟩ := List.map_eq_cons_iff.mp hshape
    exact .cons (h.1 n' hn) (ih hns h.2)

/-- **Trees of the same shape go side by side**, in scopes that admit the names they declare. -/
theorem beside_of_shape (hS : Admits id D S) (n : Tree Span) :
    ∀ n' : Tree Span, n'.shape = n.shape → (∀ x, n.Declaring x → D x) → Beside id S n n' := by
  have hid : Function.Injective (id : String → String) := Function.injective_id
  induction n using Tree.induction with
  | int l value =>
    intro n' hshape hD
    cases n' with
    | int l' value' =>
      obtain ⟨-, rfl⟩ := Tree.int.inj hshape
      exact .int l l' value'
    | _ => cases hshape
  | var l name =>
    intro n' hshape hD
    cases n' with
    | var l' name' =>
      obtain ⟨-, rfl⟩ := Tree.var.inj hshape
      exact .var l l' name'
    | _ => cases hshape
  -- array literals and assignments stop inference with the same problem, whatever they hold
  | array l elems _ =>
    intro n' hshape hD
    cases n' with
    | array l' elems' => exact .array l l'
    | _ => cases hshape
  | assign l name value _ =>
    intro n' hshape hD
    cases n' with
    | assign l' name' value' =>
      obtain ⟨-, rfl, -⟩ := Tree.assign.inj hshape
      exact .assign l l' name'
    | _ => cases hshape
  | tuple l elems ih =>
    intro n' hshape hD
    cases n' with
    | tuple l' elems' =>
      rw [shape_tuple, shape_tuple] at hshape
      refine .tuple l l' hid (forall₂_of_shape (Tree.tuple.inj hshape).2 fun n hn n' hn' => ?_)
      exact ih n hn n' hn' fun x hx => hD x (hx.of_child (t := .tuple l elems) hn)
    | _ => cases hshape
  | apply l fn arg ihf iha =>
    intro n' hshape hD
    cases n' with
    | apply l' fn' arg' =>
      rw [shape_apply, shape_apply] at hshape
      obtain ⟨-, hfn, harg⟩ := Tree.apply.inj hshape
      exact .apply l l' hid (ihf fn' hfn fun x hx => hD x (hx.of_child (by simp [children])))
        (iha arg' harg fun x hx => hD x (hx.of_child (by simp [children])))
    | _ => cases hshape
  | fn l params body ih =>
    intro n' hshape hD
    cases n' with
    | fn l' params' body' =>
      rw [shape_fn, shape_fn] at hshape
      -- nothing is renamed here, so the parameters are the same
      obtain ⟨-, rfl, hbody⟩ := Tree.fn.inj hshape
      have h := ih body' hbody fun x hx => hD x (hx.of_child (by simp [children]))
      have hfn := Beside.fn l l' hid params' h
      rwa [List.map_id] at hfn
    | _ => cases hshape
  | decl l name value ih =>
    intro n' hshape hD
    cases n' with
    | decl l' name' value' =>
      rw [shape_decl, shape_decl] at hshape
      obtain ⟨-, rfl, hvalue⟩ := Tree.decl.inj hshape
      exact .decl l l' hS name' (ih value' hvalue fun x hx =>
        hD x (hx.of_child (by simp [children])))
    | _ => cases hshape
  | ret l value ih =>
    intro n' hshape hD
    cases n' with
    | ret l' value' =>
      rw [shape_ret, shape_ret] at hshape
      exact .ret l l' (ih value' (Tree.ret.inj hshape).2 fun x hx =>
        hD x (hx.of_child (by simp [children])))
    | _ => cases hshape
  | block l stmts ih =>
    intro n' hshape hD
    cases n' with
    | block l' stmts' =>
      rw [shape_block, shape_block] at hshape
      have h := forall₂_of_shape (Tree.block.inj hshape).2 fun n hn n' hn' =>
        ih n hn n' hn' fun x hx => hD x (hx.of_child (t := .block l stmts) hn)
      -- the names that a block declares are written in it, and those are admitted
      refine .block l l' hid hS h (fun _ _ _ _ => rfl) fun hres x hx => hD x ?_
      exact (result_named _ hres).keys_defined x hx
    | _ => cases hshape

end Tree

/-! ### Scopes -/

theorem Typing.renameUses_renameUses (σ κ : String → String) (T : Typing) :
    (T.renameUses σ).renameUses κ = T.renameUses (κ ∘ σ) := by
  induction T using Typing.induction with
  | mk ty context defined ih =>
    rw [renameUses_mk, renameUses_mk, renameUses_mk, Table.mapKeys, Table.mapKeys, Table.mapKeys,
      List.map_map, Table.mapValues, Table.mapValues, Table.mapValues, List.map_map]
    refine congrArg₂ _ rfl (List.map_congr_left fun e he => ?_)
    rw [Function.comp_apply, ih e he]

/-- Signatures are the same under other names for hidden uses. -/
theorem admits_sameOutside {hidden : List String} {κ : String → String}
    (hκ : Collapses hidden κ) (hρ : ∀ x, κ (ρ x) = κ x) :
    Admits ρ (· ∉ hidden) (SameOutside hidden κ) := by
  have hcollapse : ∀ T : Typing, (T.renameUses ρ).renameUses κ = T.renameUses κ := fun T => by
    rw [Typing.renameUses_renameUses, show κ ∘ ρ = κ from funext hρ]
  refine ⟨fun hscopes hst span span' name T =>
    signature_abreast hκ span span' name hscopes (hcollapse T) hst, fun hT hscopes => ?_⟩
  refine .cons ⟨?_, hT⟩ hscopes
  rw [Typing.renameUses_defined, Table.mapValues, Table.mapValues, List.map_map, Table.mapValues]
  exact List.map_congr_left fun e _ => congrArg (e.1, ·) (hcollapse e.2)

/-! ### Checks -/

theorem builtins_abreast (withPrelude : Bool) {st st' : State} (h : st.Matches st') :
    (builtins withPrelude st').1 = (builtins withPrelude st).1 ∧
      (builtins withPrelude st).2.Matches (builtins withPrelude st').2 := by
  obtain ⟨count, subst, log⟩ := st
  obtain ⟨count', subst', log'⟩ := st'
  obtain ⟨hcount, hsubst⟩ := h
  cases hcount
  cases hsubst
  cases withPrelude <;> exact ⟨rfl, rfl, rfl⟩

/-- The checks of trees that go side by side report the same. -/
theorem Tree.Beside.checked {t t' : Tree Span} (h : t.Beside id S t') {withPrelude : Bool}
    (hscope : ∀ st, S [(builtins withPrelude st).1] [(builtins withPrelude st).1]) {c : Checked}
    {st₁ : State} (hc : checkTree withPrelude t {} = (.ok c, st₁)) :
    ∃ c' st₁', checkTree withPrelude t' {} = (.ok c', st₁') ∧
      c'.signatures.map Signature.entry = c.signatures.map Signature.entry := by
  have h₁ := h.run (State.Matches.refl {})
  rw [checkTree, Infer.bind_apply, Infer.lift_apply] at hc ⊢
  generalize infer t.unmarked {} = x at h₁ hc
  generalize infer t'.unmarked {} = x' at h₁ ⊢
  cases h₁ with
  | error => cases hc
  | @ok T T' root root' st st' hT hroot hst =>
    rw [Typing.renameUses_id] at hT
    subst hT
    simp only at hc ⊢
    have hlogged := hst.logged (.inferred st.count T'.context.length)
      (.inferred st'.count T'.context.length)
    obtain ⟨hsame, hst₂⟩ := builtins_abreast withPrelude hlogged
    have hscope := hscope (st.logged (.inferred st.count T'.context.length))
    rw [checkInferred_eq] at hc ⊢
    generalize builtins withPrelude (st.logged _) = y at hc hscope hsame hst₂
    generalize builtins withPrelude (st'.logged _) = y' at hsame hst₂ ⊢
    obtain ⟨scope, st₂⟩ := y
    obtain ⟨scope', st₂'⟩ := y'
    obtain rfl : scope' = scope := hsame
    simp only at hc ⊢
    -- positions are all that differs when the free names of the program meet the builtins
    have h₂ := resolve_abreast collapses_id (rfl : Table.mapValues _ scope' = _)
      (fun _ _ => List.not_mem_nil) root.label.span root'.label.span
      (rfl : outside [] T'.context = _) (rfl : outside [] [] = _) hst₂
    generalize resolve [] scope' root.label.span _ _ = z at h₂ hc
    generalize resolve [] scope' root'.label.span _ _ = z' at h₂ ⊢
    cases h₂ with
    | error _ => cases hc
    | ok hunresolved hst₃ =>
      cases hc
      exact ⟨_, _, rfl, (hroot.run hscope (hst₃.logged _ _)).1⟩

/-- **The layout of a program has no influence on what is reported.** -/
theorem checkTree_of_shape {t t' : Tree Span} (hshape : t'.shape = t.shape) {withPrelude : Bool}
    {c : Checked} {st : State} (hc : checkTree withPrelude t {} = (.ok c, st)) :
    ∃ c' st', checkTree withPrelude t' {} = (.ok c', st') ∧
      c'.signatures.map Signature.entry = c.signatures.map Signature.entry := by
  have hS := admits_sameOutside (ρ := id) collapses_id fun _ => rfl
  refine (Tree.beside_of_shape hS t t' hshape fun _ _ => List.not_mem_nil).checked ?_ hc
  exact fun _ => .cons ⟨rfl, fun _ _ => List.not_mem_nil⟩ .nil

end LetTyping
