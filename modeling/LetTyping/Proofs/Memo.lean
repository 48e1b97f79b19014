import LetTyping.Proofs.Evaluation
import LetTyping.Proofs.Tree

/-!
# Typings that are kept

A tree goes through inference with its shape and its known typings: inference only adds typings, at
the node it is asked for and at nodes below.

## Main definitions

* `Tree.typing?` — the typing that is known at the end of a path.
* `Tree.Completes` — a tree has the typings of another one and possibly further ones.

## Main results

* `infer_completes` — **inference keeps every typing that is known.**
* `infer_label` — a node has its typing afterwards if inference finds one.
* `Tree.Completes.set` — the same for a node within a tree.
-/

namespace LetTyping

/-- A list whose element is replaced by a related one is related to the list that was, element by
element. -/
theorem forall₂_set {α : Type} {R : α → α → Prop} (hrefl : ∀ a, R a a) {as : List α} {i : Nat}
    {a a' : α} (hi : as[i]? = some a) (h : R a a') : List.Forall₂ R as (as.set i a') := by
  induction as generalizing i with
  | nil => cases hi
  | cons b as ih =>
    cases i with
    | zero =>
      obtain rfl : b = a := Option.some.inj hi
      exact .cons h (List.forall₂_same.mpr fun b _ => hrefl b)
    | succ i => exact .cons (hrefl b) (ih hi)

namespace Tree

variable {α β : Type}

/-! ### Paths -/

@[simp] theorem get?_nil (t : Tree α) : t.get? [] = some t := rfl

theorem get?_cons (t : Tree α) (i : Nat) (path : List Nat) :
    t.get? (i :: path) = t.children[i]?.bind (get? · path) := rfl

theorem get?_map (f : α → β) (t : Tree α) (path : List Nat) :
    (t.map f).get? path = (t.get? path).map (map f) := by
  induction path generalizing t with
  | nil => rfl
  | cons i path ih =>
    rw [get?_cons, get?_cons, children_map, List.getElem?_map]
    cases t.children[i]? with
    | none => rfl
    | some c => exact ih c

theorem get?_below {t c n : Tree α} {i : Nat} {path : List Nat} (hi : t.children[i]? = some c)
    (hc : c.get? path = some n) : t.get? (i :: path) = some n :=
  Option.bind_eq_some_iff.mpr ⟨c, hi, hc⟩

/-- Induction on the path to a node: up from the node, parent by parent. -/
@[elab_as_elim] theorem pathInduction {n : Tree α}
    {motive : ∀ (t : Tree α) (path : List Nat), t.get? path = some n → Prop}
    (here : motive n [] rfl)
    (below : ∀ (t : Tree α) (i : Nat) (c : Tree α) (path : List Nat) (hi : t.children[i]? = some c)
      (hc : c.get? path = some n), motive c path hc → motive t (i :: path) (get?_below hi hc))
    {t : Tree α} {path : List Nat} (h : t.get? path = some n) : motive t path h := by
  induction path generalizing t with
  | nil =>
    obtain rfl : t = n := Option.some.inj h
    exact here
  | cons i path ih =>
    obtain ⟨c, hi, hc⟩ := Option.bind_eq_some_iff.mp h
    exact below t i c path hi hc (ih hc)

theorem set_cons {t c : Tree α} {i : Nat} (hi : t.children[i]? = some c) (new : Tree α)
    (path : List Nat) : t.set new (i :: path) = t.setChild i (c.set new path) := by
  rw [set, hi]

theorem children_setChild (t : Tree α) {i : Nat} (hi : i < t.children.length) (c : Tree α) :
    (t.setChild i c).children = t.children.set i c := by
  cases t with
  | int _ _ | var _ _ => exact absurd hi (by simp [children])
  | tuple _ _ | array _ _ | block _ _ => rfl
  | apply _ _ _ =>
    have hi : i = 0 ∨ i = 1 := Nat.le_one_iff_eq_zero_or_eq_one.mp (Nat.le_of_lt_succ hi)
    rcases hi with rfl | rfl <;> rfl
  | fn _ _ _ | decl _ _ _ | assign _ _ _ | ret _ _ =>
    obtain rfl : i = 0 := Nat.lt_one_iff.mp hi
    rfl

theorem label_setChild (t : Tree α) (i : Nat) (c : Tree α) : (t.setChild i c).label = t.label := by
  unfold setChild
  split <;> rfl

theorem map_setChild (f : α → β) (t : Tree α) {i : Nat} (hi : i < t.children.length) (c : Tree α) :
    (t.setChild i c).map f = (t.map f).setChild i (c.map f) := by
  cases t with
  | int _ _ | var _ _ => exact absurd hi (by simp [children])
  | tuple _ _ | array _ _ | block _ _ => simp [setChild, map, List.map_set]
  | apply _ _ _ =>
    have hi : i = 0 ∨ i = 1 := Nat.le_one_iff_eq_zero_or_eq_one.mp (Nat.le_of_lt_succ hi)
    rcases hi with rfl | rfl <;> rfl
  | fn _ _ _ | decl _ _ _ | assign _ _ _ | ret _ _ =>
    obtain rfl : i = 0 := Nat.lt_one_iff.mp hi
    rfl

theorem setChild_self (t : Tree α) {i : Nat} {c : Tree α} (h : t.children[i]? = some c) :
    t.setChild i c = t := by
  obtain ⟨hi, rfl⟩ := List.getElem?_eq_some_iff.mp h
  cases t with
  | int _ _ | var _ _ => exact absurd hi (by simp [children])
  | tuple _ _ | array _ _ | block _ _ => simp [setChild, children]
  | apply _ _ _ =>
    have hi : i = 0 ∨ i = 1 := Nat.le_one_iff_eq_zero_or_eq_one.mp (Nat.le_of_lt_succ hi)
    rcases hi with rfl | rfl <;> rfl
  | fn _ _ _ | decl _ _ _ | assign _ _ _ | ret _ _ =>
    obtain rfl : i = 0 := Nat.lt_one_iff.mp hi
    rfl

/-- The typing that is known at the end of a path. -/
def typing? (t : Tree Mark) (path : List Nat) : Option Typing :=
  (t.get? path).bind (·.label.typing)

theorem typing?_cons (t : Tree Mark) (i : Nat) (path : List Nat) :
    t.typing? (i :: path) = t.children[i]?.bind (·.typing? path) := by
  rw [typing?, get?_cons, Option.bind_assoc]
  rfl

/-- The node that was put at the end of a path has its typing there. -/
theorem typing?_set {t n : Tree Mark} {path : List Nat} (h : t.get? path = some n)
    (new : Tree Mark) : (t.set new path).typing? path = new.label.typing := by
  induction h using pathInduction with
  | here => rfl
  | below t i c path hi _ ih =>
    have hlt : i < t.children.length := (List.getElem?_eq_some_iff.mp hi).1
    rw [set_cons hi, typing?_cons, children_setChild t hlt, List.getElem?_set_self hlt]
    exact ih

/-! ### Completions -/

/-- The tree `t'` has the shape of `t`, the typings known there, and possibly further ones. -/
structure Completes (t t' : Tree Mark) : Prop where
  erase_eq : t'.erase = t.erase
  kept : ∀ path T, t.typing? path = some T → t'.typing? path = some T

namespace Completes

variable {t t' t'' : Tree Mark}

theorem refl (t : Tree Mark) : Completes t t := ⟨rfl, fun _ _ h => h⟩

theorem trans (h : Completes t t') (h' : Completes t' t'') : Completes t t'' :=
  ⟨h'.erase_eq.trans h.erase_eq, fun path T hT => h'.kept path T (h.kept path T hT)⟩

theorem forall₂_refl (ts : List (Tree Mark)) : List.Forall₂ Completes ts ts :=
  List.forall₂_same.mpr fun t _ => .refl t

theorem getElem? {ts ts' : List (Tree Mark)} (h : List.Forall₂ Completes ts ts') {i : Nat}
    {c : Tree Mark} (hc : ts[i]? = some c) : ∃ c', ts'[i]? = some c' ∧ Completes c c' := by
  induction h generalizing i with
  | nil => exact absurd hc (by simp)
  | @cons t t' _ _ ht _ ih =>
    cases i with
    | zero =>
      obtain rfl : t = c := by simpa using hc
      exact ⟨t', rfl, ht⟩
    | succ i => exact ih hc

theorem map_erase_eq {ts ts' : List (Tree Mark)} (h : List.Forall₂ Completes ts ts') :
    ts'.map erase = ts.map erase := by
  induction h with
  | nil => rfl
  | cons ht _ ih => rw [List.map_cons, List.map_cons, ht.erase_eq, ih]

/-- Completions of the nodes below a node. -/
theorem of_children (herase : t'.erase = t.erase) (hlabel : t'.label = t.label)
    (hc : List.Forall₂ Completes t.children t'.children) : Completes t t' := by
  refine ⟨herase, fun path T hT => ?_⟩
  cases path with
  | nil =>
    change t'.label.typing = some T
    rw [hlabel]
    exact hT
  | cons i path =>
    rw [typing?_cons, Option.bind_eq_some_iff] at hT ⊢
    obtain ⟨c, hi, hT⟩ := hT
    obtain ⟨c', hi', hc'⟩ := getElem? hc hi
    exact ⟨c', hi', hc'.kept path T hT⟩

section Nodes

variable {u u' : Tree Mark} {ts ts' : List (Tree Mark)} (m : Mark)

theorem tuple (h : List.Forall₂ Completes ts ts') : Completes (.tuple m ts) (.tuple m ts') :=
  of_children (by rw [erase_tuple, erase_tuple, map_erase_eq h]) rfl h

theorem block (h : List.Forall₂ Completes ts ts') : Completes (.block m ts) (.block m ts') :=
  of_children (by rw [erase_block, erase_block, map_erase_eq h]) rfl h

theorem apply (h : Completes t t') (h' : Completes u u') :
    Completes (.apply m t u) (.apply m t' u') :=
  of_children (congrArg₂ (Tree.apply m.span) h.erase_eq h'.erase_eq) rfl (.cons h (.cons h' .nil))

theorem fn (params : List String) (h : Completes t t') :
    Completes (.fn m params t) (.fn m params t') :=
  of_children (congrArg (Tree.fn m.span params) h.erase_eq) rfl (.cons h .nil)

theorem decl (name : String) (h : Completes t t') : Completes (.decl m name t) (.decl m name t') :=
  of_children (congrArg (Tree.decl m.span name) h.erase_eq) rfl (.cons h .nil)

theorem ret (h : Completes t t') : Completes (.ret m t) (.ret m t') :=
  of_children (congrArg (Tree.ret m.span) h.erase_eq) rfl (.cons h .nil)

end Nodes

/-- A typing is kept at a root without one. -/
theorem settle (h : Completes t t') (hroot : t.label.typing = none) (r : Except Problem Typing) :
    Completes t (t'.settle r).2 := by
  cases r with
  | error p => exact h
  | ok T =>
    refine ⟨?_, fun path U hU => ?_⟩
    · rw [← h.erase_eq]
      cases t' <;> rfl
    · cases path with
      | nil => exact absurd (hroot.symm.trans hU) (by simp)
      | cons i path =>
        have hkept := h.kept (i :: path) U hU
        rw [typing?_cons] at hkept ⊢
        rwa [children_settle]

/-- A completion of a node within a tree. -/
theorem set {n n' : Tree Mark} (h : Completes n n') {path : List Nat}
    (hpath : t.get? path = some n) : Completes t (t.set n' path) := by
  induction hpath using pathInduction with
  | here => exact h
  | below t i c path hi _ ih =>
    have hlt : i < t.children.length := (List.getElem?_eq_some_iff.mp hi).1
    rw [set_cons hi]
    refine of_children ?_ (label_setChild t i _) ?_
    · rw [erase, map_setChild _ t hlt, ← erase, ← erase, ih.erase_eq, setChild_self]
      rw [erase, children_map, List.getElem?_map, hi, Option.map_some, erase]
    · rw [children_setChild t hlt]
      exact forall₂_set .refl hi ih

end Completes

end Tree

/-! ### Inference -/

theorem inferAll_completes {ts : List (Tree Mark)}
    (ih : ∀ t ∈ ts, ∀ st, Tree.Completes t (infer t st).1.2) (st : State) :
    List.Forall₂ Tree.Completes ts (inferAll ts st).1.2 := by
  induction ts generalizing st with
  | nil => exact .nil
  | cons t ts ihs =>
    rw [List.forall_mem_cons] at ih
    have h₁ := ih.1 st
    rw [inferAll_cons]
    rcases hres : infer t st with ⟨⟨p | T, t'⟩, st₁⟩ <;> rw [hres] at h₁
    · exact .cons h₁ (Tree.Completes.forall₂_refl ts)
    · exact .cons h₁ (ihs ih.2 st₁)

theorem inferStatements_completes {ts : List (Tree Mark)}
    (ih : ∀ t ∈ ts, ∀ st, Tree.Completes t (infer t st).1.2) (sofar : Typing) (st : State) :
    List.Forall₂ Tree.Completes ts (inferStatements sofar ts st).1.2 := by
  induction ts generalizing sofar st with
  | nil => exact .nil
  | cons t ts ihs =>
    rw [List.forall_mem_cons] at ih
    have h₁ := ih.1 (st.logged (.statement t.kind t.label.span.start))
    rw [inferStatements_cons]
    rcases hres : infer t _ with ⟨⟨p | raw, t'⟩, st₁⟩ <;> rw [hres] at h₁
    · exact .cons h₁ (Tree.Completes.forall₂_refl ts)
    · simp only
      rcases absorb sofar t'.label.span raw st₁ with ⟨p | sofar', st₂⟩
      · exact .cons h₁ (Tree.Completes.forall₂_refl ts)
      · exact .cons h₁ (ihs ih.2 sofar' st₂)

/-- **Inference keeps every typing that is known.** -/
theorem infer_completes (t : Tree Mark) (st : State) : t.Completes (infer t st).1.2 := by
  induction t using Tree.pendingInduction generalizing st with
  | known t T hT =>
    rw [infer_known hT]
    exact .refl t
  | int m value hm =>
    rw [infer_int hm]
    exact (Tree.Completes.refl (.int m value)).settle hm _
  | array m elems hm =>
    rw [infer_array hm]
    exact .refl _
  | assign m name value hm =>
    rw [infer_assign hm]
    exact .refl _
  | var m name hm =>
    rw [infer_var hm]
    exact (Tree.Completes.refl (.var m name)).settle hm _
  | tuple m elems hm ih =>
    rw [infer_tuple hm]
    exact (Tree.Completes.tuple m (inferAll_completes ih st)).settle hm _
  -- a failure in the function leaves the argument as it was; one in the argument keeps the function
  | apply m fn arg hm ihf iha =>
    have h₁ := ihf st
    rw [infer_apply hm]
    rcases hres : infer fn st with ⟨⟨p | fnRaw, fn'⟩, st₁⟩ <;> rw [hres] at h₁
    · exact h₁.apply m (.refl arg)
    · have h₂ := iha (instantiate fnRaw st₁).2
      simp only
      rcases hres' : infer arg _ with ⟨⟨p | argRaw, arg'⟩, st₂⟩ <;> rw [hres'] at h₂
      · exact h₁.apply m h₂
      · exact (h₁.apply m h₂).settle hm _
  | fn m params body hm ih =>
    have h₁ := ih st
    rw [infer_fn hm]
    -- a body without a typing leaves the function without one
    rcases hres : infer body st with ⟨⟨p | raw, body'⟩, st₁⟩ <;> rw [hres] at h₁
    · exact h₁.fn m params
    · exact (h₁.fn m params).settle hm _
  | decl m name value hm ih =>
    rw [infer_decl hm]
    exact ((ih st).decl m name).settle hm _
  | ret m value hm ih =>
    rw [infer_ret hm]
    exact ((ih st).ret m).settle hm _
  | block m stmts hm ih =>
    rw [infer_block hm]
    exact (Tree.Completes.block m (inferStatements_completes ih _ st)).settle hm _

/-- Inference leaves the tree as it is but for the typings. -/
theorem infer_erase {n : Tree Span} {st st' : State} {r : Except Problem Typing} {root : Tree Mark}
    (h : infer n.unmarked st = ((r, root), st')) : root.erase = n := by
  have herase := (infer_completes n.unmarked st).erase_eq
  rwa [h, Tree.erase_unmarked] at herase

/-- A node that is settled has a typing exactly if there is one to keep. -/
theorem Tree.label_settle (t : Tree Mark) (r : Except Problem Typing) (h : t.label.typing = none) :
    (t.settle r).2.label.typing = (t.settle r).1.toOption := by
  cases r with
  | error p => exact h
  | ok T => exact congrArg Mark.typing (label_setLabel _ t)

/-- **A node has its typing afterwards exactly if inference finds one.** -/
theorem infer_label (t : Tree Mark) (st : State) :
    (infer t st).1.2.label.typing = (infer t st).1.1.toOption := by
  induction t using Tree.pendingInduction with
  | known t T hT =>
    rw [infer_known hT]
    exact hT
  | int m value hm =>
    rw [infer_int hm]
    exact Tree.label_settle _ _ hm
  | array m elems hm =>
    rw [infer_array hm]
    exact hm
  | assign m name value hm =>
    rw [infer_assign hm]
    exact hm
  | var m name hm =>
    rw [infer_var hm]
    exact Tree.label_settle _ _ hm
  | tuple m elems hm _ =>
    rw [infer_tuple hm]
    exact Tree.label_settle _ _ hm
  -- the node itself is marked only when the function and the argument have typings
  | apply m fn arg hm _ _ =>
    rw [infer_apply hm]
    rcases infer fn st with ⟨⟨p | fnRaw, fn'⟩, st₁⟩
    · exact hm
    · simp only
      rcases infer arg _ with ⟨⟨p | argRaw, arg'⟩, st₂⟩
      · exact hm
      · exact Tree.label_settle _ _ hm
  | fn m params body hm _ =>
    rw [infer_fn hm]
    rcases infer body st with ⟨⟨p | raw, body'⟩, st₁⟩
    · exact hm
    · exact Tree.label_settle _ _ hm
  | decl m name value hm _ =>
    rw [infer_decl hm]
    exact Tree.label_settle _ _ hm
  | ret m value hm _ =>
    rw [infer_ret hm]
    exact Tree.label_settle _ _ hm
  | block m stmts hm _ =>
    rw [infer_block hm]
    exact Tree.label_settle _ _ hm

/-- The typings of some nodes are kept at these nodes. -/
theorem inferAll_labels {ts : List (Tree Mark)} {st : State} {Ts : List Typing}
    (h : (inferAll ts st).1.1 = .ok Ts) :
    (inferAll ts st).1.2.map (·.label.typing) = Ts.map some := by
  induction ts generalizing st Ts with
  | nil =>
    obtain rfl : [] = Ts := Except.ok.inj h
    rfl
  | cons t ts ih =>
    -- each node is labelled with its own result, and the nodes behind it are left to the rest
    have hlabel := infer_label t st
    rw [inferAll_cons] at h ⊢
    rcases hres : infer t st with ⟨⟨p | T, t'⟩, st₁⟩ <;> rw [hres] at h hlabel
    · cases h
    · simp only at h ⊢
      rcases hrest : inferAll ts st₁ with ⟨⟨p | Ts', ts'⟩, st₂⟩ <;> rw [hrest] at h
      · cases h
      · obtain rfl : T :: Ts' = Ts := Except.ok.inj h
        have htail := ih (congrArg (·.1.1) hrest)
        rw [hrest] at htail
        exact congrArg₂ List.cons hlabel htail

end LetTyping
