import LetTyping.Infer

/-!
# Trees with typings

Facts about trees that do not depend on what inference does: induction on trees, the typings that
are known in a tree, and the tree without them.

## Main definitions

* `Tree.Marked` — a property of every node whose typing is known, and of the typing.
* `Tree.erase` — the tree without its typings.
* `Tree.Succeeded` — no application in a tree has failed.

## Main results

* `Tree.induction`, `Tree.childInduction` — induction on trees, with a hypothesis for every node
  directly below.
* `Tree.pendingInduction` — the same, with the nodes whose typings are known set apart.
* `Tree.forall_subtrees_iff` — properties of all subtrees, level by level.
* `Tree.marked_iff`, `Tree.marked_settle` — the known typings, node by node.
-/

namespace LetTyping

namespace Tree

variable {α β γ : Type}

/-- Induction on trees, with a hypothesis for every node directly below. -/
theorem induction {motive : Tree α → Prop} (int : ∀ l value, motive (.int l value))
    (tuple : ∀ l elems, (∀ e ∈ elems, motive e) → motive (.tuple l elems))
    (array : ∀ l elems, (∀ e ∈ elems, motive e) → motive (.array l elems))
    (var : ∀ l name, motive (.var l name))
    (apply : ∀ l fn arg, motive fn → motive arg → motive (.apply l fn arg))
    (fn : ∀ l params body, motive body → motive (.fn l params body))
    (decl : ∀ l name value, motive value → motive (.decl l name value))
    (assign : ∀ l name value, motive value → motive (.assign l name value))
    (ret : ∀ l value, motive value → motive (.ret l value))
    (block : ∀ l stmts, (∀ s ∈ stmts, motive s) → motive (.block l stmts)) (t : Tree α) :
    motive t :=
  @Tree.rec α motive (fun ts => ∀ t ∈ ts, motive t) int tuple array var apply fn decl assign ret
    block (fun _ h => nomatch h)
    (fun _ _ ht hts t h => (List.mem_cons.1 h).elim (fun heq => heq ▸ ht) (hts t)) t

/-- Induction on trees where all kinds of nodes are alike. -/
theorem childInduction {motive : Tree α → Prop}
    (step : ∀ t, (∀ c ∈ t.children, motive c) → motive t) (t : Tree α) : motive t := by
  induction t using Tree.induction <;> refine step _ ?_ <;> simp_all [children]

/-- Induction on trees for inference: nodes whose typings are known are set apart. -/
theorem pendingInduction {motive : Tree Mark → Prop}
    (known : ∀ t T, t.label.typing = some T → motive t)
    (int : ∀ m value, m.typing = none → motive (.int m value))
    (tuple : ∀ m elems, m.typing = none → (∀ e ∈ elems, motive e) → motive (.tuple m elems))
    (array : ∀ m elems, m.typing = none → motive (.array m elems))
    (var : ∀ m name, m.typing = none → motive (.var m name))
    (apply : ∀ m fn arg, m.typing = none → motive fn → motive arg → motive (.apply m fn arg))
    (fn : ∀ m params body, m.typing = none → motive body → motive (.fn m params body))
    (decl : ∀ m name value, m.typing = none → motive value → motive (.decl m name value))
    (assign : ∀ m name value, m.typing = none → motive (.assign m name value))
    (ret : ∀ m value, m.typing = none → motive value → motive (.ret m value))
    (block : ∀ m stmts, m.typing = none → (∀ s ∈ stmts, motive s) → motive (.block m stmts))
    (t : Tree Mark) : motive t := by
  have split : ∀ t : Tree Mark, (t.label.typing = none → motive t) → motive t := by
    intro t h
    cases hT : t.label.typing with
    | none => exact h hT
    | some T => exact known t T hT
  induction t using Tree.induction with
  | int m value => exact split _ fun h => int m value h
  | tuple m elems ih => exact split _ fun h => tuple m elems h ih
  | array m elems _ => exact split _ fun h => array m elems h
  | var m name => exact split _ fun h => var m name h
  | apply m fn arg ihf iha => exact split _ fun h => apply m fn arg h ihf iha
  | fn m params body ih => exact split _ fun h => fn m params body h ih
  | decl m name value ih => exact split _ fun h => decl m name value h ih
  | assign m name value _ => exact split _ fun h => assign m name value h
  | ret m value ih => exact split _ fun h => ret m value h ih
  | block m stmts ih => exact split _ fun h => block m stmts h ih

/-! ### Subtrees -/

theorem mem_subtrees_self (t : Tree α) : t ∈ t.subtrees := by
  rw [subtrees_eq]
  exact List.mem_cons_self

theorem mem_subtrees_of_child {t c n : Tree α} (hc : c ∈ t.children) (hn : n ∈ c.subtrees) :
    n ∈ t.subtrees := by
  rw [subtrees_eq t]
  exact List.mem_cons_of_mem _ (List.mem_flatMap.mpr ⟨c, hc, hn⟩)

/-- A property of all subtrees is one of the tree and of all the subtrees of its children. -/
theorem forall_subtrees_iff {Q : Tree α → Prop} {t : Tree α} :
    (∀ n ∈ t.subtrees, Q n) ↔ Q t ∧ ∀ c ∈ t.children, ∀ n ∈ c.subtrees, Q n := by
  simp only [subtrees_eq t, List.forall_mem_cons, List.mem_flatMap, forall_exists_index, and_imp]
  exact and_congr_right fun _ => ⟨fun h c hc n hn => h n c hc hn, fun h n c hc hn => h c hc n hn⟩

/-! ### Labels -/

-- the defining equations, generated once for all the proofs below
attribute [local simp] map

@[simp] theorem children_setLabel (l : α) (t : Tree α) : (t.setLabel l).children = t.children := by
  cases t <;> rfl

@[simp] theorem label_map (f : α → β) (t : Tree α) : (t.map f).label = f t.label := by
  cases t <;> rfl

@[simp] theorem children_map (f : α → β) (t : Tree α) :
    (t.map f).children = t.children.map (map f) := by
  cases t <;> simp [children]

theorem map_map (f : α → β) (g : β → γ) (t : Tree α) : (t.map f).map g = t.map (g ∘ f) := by
  have hlist : ∀ ts : List (Tree α), (∀ t ∈ ts, (t.map f).map g = t.map (g ∘ f)) →
      (ts.map (map f)).map (map g) = ts.map (map (g ∘ f)) := by
    intro ts ih
    rw [List.map_map]
    exact List.map_congr_left ih
  induction t using Tree.induction with
  | tuple l elems ih => simp only [map, mapList_eq_map, hlist elems ih, Function.comp_apply]
  | array l elems ih => simp only [map, mapList_eq_map, hlist elems ih, Function.comp_apply]
  | block l stmts ih => simp only [map, mapList_eq_map, hlist stmts ih, Function.comp_apply]
  | _ => simp_all only [map, Function.comp_apply]

theorem map_eq_self {f : α → α} (hf : ∀ l, f l = l) (t : Tree α) : t.map f = t := by
  have hlist : ∀ ts : List (Tree α), (∀ t ∈ ts, t.map f = t) → ts.map (map f) = ts :=
    fun ts ih => (List.map_congr_left ih).trans (List.map_id' ts)
  induction t using Tree.induction with
  | tuple l elems ih => simp only [map, mapList_eq_map, hlist elems ih, hf]
  | array l elems ih => simp only [map, mapList_eq_map, hlist elems ih, hf]
  | block l stmts ih => simp only [map, mapList_eq_map, hlist stmts ih, hf]
  | _ => simp_all only [map]

/-- The tree without its typings. -/
def erase (t : Tree Mark) : Tree Span := t.map Mark.span

@[simp] theorem erase_unmarked (t : Tree Span) : t.unmarked.erase = t := by
  rw [erase, unmarked, map_map]
  exact map_eq_self (fun _ => rfl) t

theorem erase_tuple (m : Mark) (ts : List (Tree Mark)) :
    (tuple m ts).erase = .tuple m.span (ts.map erase) := by
  rw [erase, map, mapList_eq_map]
  rfl

theorem erase_block (m : Mark) (ts : List (Tree Mark)) :
    (block m ts).erase = .block m.span (ts.map erase) := by
  rw [erase, map, mapList_eq_map]
  rfl

section Unmarked

variable (l : Span) (name : String) (t u : Tree Span) (ts : List (Tree Span))

theorem unmarked_int (value : Int) : (int l value).unmarked = .int ⟨l, none⟩ value := rfl

theorem unmarked_var : (var l name).unmarked = .var ⟨l, none⟩ name := rfl

theorem unmarked_tuple : (tuple l ts).unmarked = .tuple ⟨l, none⟩ (ts.map unmarked) := by
  rw [unmarked, map, mapList_eq_map]
  rfl

theorem unmarked_array : (array l ts).unmarked = .array ⟨l, none⟩ (ts.map unmarked) := by
  rw [unmarked, map, mapList_eq_map]
  rfl

theorem unmarked_apply : (apply l t u).unmarked = .apply ⟨l, none⟩ t.unmarked u.unmarked := rfl

theorem unmarked_fn (params : List String) :
    (fn l params t).unmarked = .fn ⟨l, none⟩ params t.unmarked := rfl

theorem unmarked_decl : (decl l name t).unmarked = .decl ⟨l, none⟩ name t.unmarked := rfl

theorem unmarked_assign : (assign l name t).unmarked = .assign ⟨l, none⟩ name t.unmarked := rfl

theorem unmarked_ret : (ret l t).unmarked = .ret ⟨l, none⟩ t.unmarked := rfl

theorem unmarked_block : (block l ts).unmarked = .block ⟨l, none⟩ (ts.map unmarked) := by
  rw [unmarked, map, mapList_eq_map]
  rfl

end Unmarked

/-! ### Known typings -/

/-- Every node whose typing is known has a property together with the typing. -/
def Marked (Q : Tree Mark → Typing → Prop) (t : Tree Mark) : Prop :=
  ∀ n ∈ t.subtrees, ∀ T, n.label.typing = some T → Q n T

variable {Q Q' : Tree Mark → Typing → Prop} {t : Tree Mark}

theorem marked_iff :
    Marked Q t ↔ (∀ T, t.label.typing = some T → Q t T) ∧ ∀ c ∈ t.children, Marked Q c :=
  forall_subtrees_iff

theorem Marked.imp (h : Marked Q t) (himp : ∀ n T, Q n T → Q' n T) : Marked Q' t :=
  fun n hn T hT => himp n T (h n hn T hT)

theorem marked_unmarked (t : Tree Span) : Marked Q t.unmarked := by
  induction t using childInduction with
  | step t ih =>
    rw [marked_iff, unmarked, label_map, children_map, List.forall_mem_map]
    exact ⟨fun T hT => (nomatch hT), ih⟩

@[simp] theorem settle_fst (t : Tree Mark) (r : Except Problem Typing) : (t.settle r).1 = r := by
  cases r <;> rfl

@[simp] theorem children_settle (t : Tree Mark) (r : Except Problem Typing) :
    (t.settle r).2.children = t.children := by
  cases r with
  | error p => rfl
  | ok T => exact children_setLabel _ t

/-- Keeping a typing at the root adds it to the known typings. -/
theorem marked_settle (h : t.label.typing = none) {r : Except Problem Typing} :
    Marked Q (t.settle r).2 ↔
      (∀ T, r = .ok T → Q (t.settle r).2 T) ∧ ∀ c ∈ t.children, Marked Q c := by
  rw [marked_iff]
  cases r with
  | error p => simp [settle, h]
  | ok T => simp [settle]

/-- A run that keeps a typing at the root of a tree. -/
theorem settle_run {r : Except Problem Typing} {T : Typing} {t' : Tree Mark} {st st' : State}
    (h : (t.settle r, st) = ((.ok T, t'), st')) :
    r = .ok T ∧ t' = (t.settle (.ok T)).2 ∧ st = st' := by
  cases r with
  | error p => cases h
  | ok T' =>
    cases h
    exact ⟨rfl, rfl, rfl⟩

/-- Whether the root is an application. -/
def isApply : Tree α → Bool
  | .apply _ _ _ => true
  | _ => false

/-- No application in the tree has a type that marks a failure. -/
def Succeeded (t : Tree Mark) : Prop := t.Marked fun n T => n.isApply → T.ty.isFailure = false

instance (t : Tree Mark) : Decidable t.Succeeded :=
  decidable_of_iff (∀ n ∈ t.subtrees, n.isApply = true → ∀ T ∈ n.label.typing.toList,
    T.ty.isFailure = false) <| by
    simp only [Succeeded, Marked, Option.mem_toList]
    exact forall₂_congr fun _ _ => ⟨fun h T hT happ => h happ T hT, fun h happ T hT => h T hT happ⟩

theorem succeeded_iff : t.Succeeded ↔
    (∀ T, t.label.typing = some T → t.isApply → T.ty.isFailure = false) ∧
      ∀ c ∈ t.children, c.Succeeded :=
  marked_iff

theorem succeeded_settle (h : t.label.typing = none) {T : Typing} :
    (t.settle (.ok T)).2.Succeeded ↔
      (t.isApply → T.ty.isFailure = false) ∧ ∀ c ∈ t.children, c.Succeeded := by
  have hroot : (t.settle (.ok T)).2.isApply = t.isApply := by
    cases t <;> rfl
  rw [Succeeded, marked_settle h, hroot]
  exact and_congr_left fun _ => ⟨fun h => h T rfl, fun h T' heq => Except.ok.inj heq ▸ h⟩

end Tree

end LetTyping
