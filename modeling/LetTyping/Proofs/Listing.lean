import Mathlib
import LetTyping.Proofs.Nesting
import LetTyping.Proofs.Occurrences

/-!
# Every declaration is listed

The signatures of a program are made on a walk through its tree that stops at a block or a value
without a typing, and goes on where a declaration cannot be resolved.  In a program that was checked
there are no nodes without typings, so the walk meets every declaration, at any depth, and reports
it before those in its value.

The order is that of the source.  A declaration starts with its keyword, before its value, and what
stands next to it lies before or behind it as a whole.

## Main definitions

* `Tree.lets` — the declarations of a tree, each before those in its value.
* `Site.place`, `Signature.place` — the name of a declaration and where it stands.

## Main results

* `Tree.sites_place` — a walk through a tree with typings meets every declaration.
* `Site.mapM_report_place` — every declaration that is met is reported, resolved or not.
* `Tree.Nested.lets_ordered` — declarations start one behind the other.
* `check_lists_declarations` — **every declaration is reported once, in source order.**
-/

namespace LetTyping

/-! ### Declarations of a tree -/

namespace Tree

variable {α : Type}

/-- The declarations of a tree with their names and labels, each before those in its value. -/
def lets (t : Tree α) : List (String × α) := t.subtrees.filterMap let?

theorem lets_eq (t : Tree α) : t.lets = t.let?.toList ++ t.children.flatMap lets := by
  rw [lets, subtrees_eq, List.filterMap_cons, List.filterMap_flatMap]
  cases t.let? <;> rfl

theorem let?_snd {t : Tree α} {p : String × α} (h : t.let? = some p) : p.2 = t.label := by
  cases t <;> cases h
  rfl

end Tree

/-- The name of the declaration and where it stands. -/
def Site.place (d : Site) : String × Span := (d.name, d.span)

/-- The name of the declaration and where it stands. -/
def Signature.place (s : Signature) : String × Span := (s.name, s.span)

/-! ### The walk -/

namespace Tree

/-- A node with a typing reports its own declaration, and then those of its children in turn. -/
theorem sites_eq {t : Tree Mark} (h : ∀ n ∈ t.subtrees, ∃ T, n.label.typing = some T)
    (scopes : List Defined) :
    ∃ own inner, t.sites scopes = own ++ t.children.flatMap (sites inner) ∧
      own.map Site.place = t.erase.let?.toList := by
  obtain ⟨⟨T, hT⟩, hchildren⟩ := forall_subtrees_iff.mp h
  cases t with
  | decl m name value =>
    obtain ⟨U, hU⟩ := hchildren value (by simp [children]) value value.mem_subtrees_self
    exact ⟨[⟨scopes, m.span, name, U⟩], scopes, by simp [sites, children, hU], rfl⟩
  | block m stmts =>
    have hT : m.typing = some T := hT
    exact ⟨[], T.defined :: scopes, by simp [sites, children, hT], rfl⟩
  | _ => exact ⟨[], scopes, by simp [sites, children], rfl⟩

/-- **The walk through a tree with typings meets every declaration**, in the order of the tree. -/
theorem sites_place {t : Tree Mark} (h : ∀ n ∈ t.subtrees, ∃ T, n.label.typing = some T)
    (scopes : List Defined) : (t.sites scopes).map Site.place = t.erase.lets := by
  induction t using childInduction generalizing scopes with
  | step t ih =>
    obtain ⟨own, inner, hsites, hown⟩ := sites_eq h scopes
    have hchildren := (forall_subtrees_iff.mp h).2
    rw [hsites, List.map_append, hown, lets_eq, List.map_flatMap, erase, children_map,
      List.flatMap_map]
    congr 1
    exact List.flatMap_congr fun c hc => ih c hc (hchildren c hc) inner

end Tree

/-- **Every declaration that is met is reported**, also if it cannot be resolved. -/
theorem Site.mapM_report_place (ds : List Site) (st : State) :
    (ds.mapM Site.report st).1.map Signature.place = ds.map Site.place := by
  induction ds generalizing st with
  | nil => rfl
  | cons d ds ih =>
    rw [mapM_report_cons]
    simp only [List.map_cons, ih]
    rw [report, signature_fst]
    rfl

/-! ### The order of the source -/

namespace Tree

variable {tokens : List (Located Token)} {t : Tree Span}

/-- The declarations of a tree start inside it. -/
theorem Nested.lets_inside (h : t.Nested tokens) :
    ∀ p ∈ t.lets, t.label.start ≤ p.2.start ∧ p.2.start < t.label.stop := by
  induction t using childInduction with
  | step t ih =>
    obtain ⟨hplaced, hchildren⟩ := nested_iff.mp h
    obtain ⟨-, -, hinside⟩ := runs_iff.mp hplaced.children
    rw [lets_eq, List.forall_mem_append, List.forall_mem_flatMap]
    constructor
    · intro p hp
      rw [let?_snd (Option.mem_toList.mp hp)]
      exact ⟨Nat.le_refl _, hplaced.proper⟩
    · intro c hc p hp
      obtain ⟨hstart, -, hstop⟩ := hinside c.label (List.mem_map_of_mem hc)
      have hp := ih c hc (hchildren c hc) p hp
      omega

/-- **The declarations of a tree start one behind the other.** -/
theorem Nested.lets_ordered (h : t.Nested tokens) :
    t.lets.Pairwise fun p q => p.2.start < q.2.start := by
  induction t using childInduction with
  | step t ih =>
    obtain ⟨hplaced, hchildren⟩ := nested_iff.mp h
    obtain ⟨-, hpairs, -⟩ := runs_iff.mp hplaced.children
    rw [List.pairwise_map] at hpairs
    rw [lets_eq, List.pairwise_append, List.pairwise_flatMap]
    refine ⟨?_, ⟨fun c hc => ih c hc (hchildren c hc), ?_⟩, ?_⟩
    · cases t.let? <;> simp
    · refine hpairs.imp_of_mem fun {c d} hc hd hbefore p hp q hq => ?_
      have hp := (hchildren c hc).lets_inside p hp
      have hq := (hchildren d hd).lets_inside q hq
      have hbefore : c.label.stop ≤ d.label.start := hbefore
      omega
    · intro p hp q hq
      obtain ⟨c, hc, hq⟩ := List.mem_flatMap.mp hq
      -- only a declaration comes before its children, and these are behind its keyword
      have hown := Option.mem_toList.mp hp
      have hbehind := hplaced.behind (Option.isSome_of_mem hown) c hc
      rw [let?_snd hown]
      exact Nat.lt_of_lt_of_le hbehind ((hchildren c hc).lets_inside q hq).1

end Tree

/-- The declarations of a program start one behind the other. -/
theorem parse_lets_ordered [Alphabet] {source : String} {tree : Tree Span}
    (h : parse source = .ok tree) : tree.lets.Pairwise fun p q => p.2.start < q.2.start := by
  obtain ⟨body, s', -, hlaid, hends, -, hprogram⟩ := parse_laid h
  rcases Reader.program_nested hlaid hends hprogram with rfl | ⟨-, hnested⟩
  · exact .nil
  · exact hnested.lets_ordered

/-- **Every declaration is reported once, in source order.**  In a program that is checked to its
end every node has a typing.  The reported names and places are those of all the declarations of the
program, at whatever depth they stand and whether they can be resolved or not, each of them before
those in its value; and they start one behind the other. -/
theorem check_lists_declarations [Alphabet] {withPrelude : Bool} {source : String} {c : Checked}
    {events : List Event} (h : check withPrelude source = (.ok c, events)) :
    ∃ tree, parse source = .ok tree ∧ c.root.erase = tree ∧
      (∀ n ∈ c.root.subtrees, ∃ T, n.label.typing = some T) ∧
      c.signatures.map Signature.place = tree.lets ∧
      (c.signatures.map fun s => s.span.start).Pairwise (· < ·) := by
  obtain ⟨tree, T, root, st, st', hparse, hinfer, hchecked⟩ := check_run h
  obtain ⟨scope, st₁, unresolved, resolved, -, -, rfl⟩ := checkInferred_run hchecked
  have htyped := (infer_recorded _ region_start hinfer).typed (infer_keeps hinfer)
  have herase : root.erase = tree := infer_erase hinfer
  have hplaces : (checkResolved scope root T unresolved resolved).signatures.map Signature.place =
      tree.lets := by
    rw [checkResolved, signatures_eq, Site.mapM_report_place, Tree.sites_place htyped, herase]
  have hordered := parse_lets_ordered hparse
  rw [← hplaces, List.pairwise_map] at hordered
  exact ⟨tree, hparse, herase, htyped, hplaces, List.pairwise_map.mpr hordered⟩

/-- In `let f = (g, fn() id({ let a = f })) let g = f` two declarations in terms of each other
cannot be resolved, and a third stands in an argument in the body of a function in a tuple. -/
theorem check_lists_declarations_circle :
    let source := "let f = (g, fn() id({ let a = f })) let g = f"
    ∃ c events, check true source = (.ok c, events) ∧
      c.signatures.map Signature.entry =
        [("f", "((a, () -> b), () -> c)"), ("a", "(a, () -> b)"), ("g", "(a, () -> b)")] ∧
      c.signatures.map Signature.place = [("f", ⟨0, 35⟩), ("a", ⟨22, 31⟩), ("g", ⟨36, 45⟩)] ∧
      ∀ n ∈ c.root.subtrees, ∃ T, n.label.typing = some T := by
  intro source
  let arg : Tree Span := .tuple ⟨19, 34⟩
    [.block ⟨20, 33⟩ [.decl ⟨22, 31⟩ "a" (.var ⟨30, 31⟩ "f")]]
  let tree : Tree Span := .block ⟨0, 45⟩ [
    .decl ⟨0, 35⟩ "f" (.tuple ⟨8, 35⟩ [.var ⟨9, 10⟩ "g",
      .fn ⟨12, 34⟩ [] (.apply ⟨17, 34⟩ (.var ⟨17, 19⟩ "id") arg)]),
    .decl ⟨36, 45⟩ "g" (.var ⟨44, 45⟩ "f")]
  have hlets : tree.lets = [("f", ⟨0, 35⟩), ("a", ⟨22, 31⟩), ("g", ⟨36, 45⟩)] := rfl
  -- the types are found by running the check, the places by the theorem
  have hentries : (checkTree true tree {}).1.toOption.map (·.signatures.map Signature.entry) =
      some [("f", "((a, () -> b), () -> c)"), ("a", "(a, () -> b)"), ("g", "(a, () -> b)")] := by
    decide +kernel
  have hparse : parse source = .ok tree := by cbv
  clear_value tree
  obtain ⟨c, hc, hentries⟩ := Option.map_eq_some_iff.mp hentries
  have hcheck := check_of_parse hparse hc
  obtain ⟨tree', hparse', -, htyped, hplaces, -⟩ := check_lists_declarations hcheck
  obtain rfl : tree = tree' := Except.ok.inj (hparse.symm.trans hparse')
  exact ⟨c, _, hcheck, hentries, hplaces.trans hlets, htyped⟩

end LetTyping
