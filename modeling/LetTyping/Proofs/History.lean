import Mathlib
import LetTyping.Proofs.Reproduction

/-!
# Sessions

A session holds a tree and a state, and the nodes of the tree are inferred one after the other: in
any order, more than once, and also after a call has failed.  What a call finds does not depend on
the calls before it, and what is known stays as it is.

## Main definitions

* `Session` — a tree with the typings known so far, and the state.
* `Session.call`, `Session.run` — one call on a node, and calls one after the other.
* `Session.Consistent` — the invariant: known typings are those found for their nodes alone.

## Main results

* `Session.Consistent.call`, `Session.Consistent.run` — the invariant is kept, and trees only grow.
* `Session.history_independent` — **a call finds what it finds for the node alone.**
-/

namespace LetTyping

/-- A tree with the typings that are known so far, and the state in which its nodes are inferred. -/
structure Session where
  tree : Tree Mark
  state : State

namespace Session

/-- No node is inferred yet. -/
def start (n : Tree Span) : Session := ⟨n.unmarked, {}⟩

/-- Infers the node at the end of a path.  A path that leads nowhere has no result. -/
def call (se : Session) (path : List Nat) : Option (Except Problem Typing) × Session :=
  match se.tree.get? path with
  | none => (none, se)
  | some node =>
    let ((result, node'), state) := infer node se.state
    (some result, ⟨se.tree.set node' path, state⟩)

/-- Infers nodes one after the other. -/
def run (se : Session) (paths : List (List Nat)) : Session :=
  paths.foldl (fun se path => (se.call path).2) se

variable {se : Session} {path : List Nat} {node : Tree Mark}

theorem call_none (h : se.tree.get? path = none) : se.call path = (none, se) := by
  rw [call, h]

theorem call_some (h : se.tree.get? path = some node) :
    se.call path = (some (infer node se.state).1.1,
      ⟨se.tree.set (infer node se.state).1.2 path, (infer node se.state).2⟩) := by
  rw [call, h]
  rfl

theorem run_append (se : Session) (earlier later : List (List Nat)) :
    se.run (earlier ++ later) = (se.run earlier).run later := List.foldl_append

/-- The nodes side by side have no variables in common, and every known typing is the one that is
found for its node alone. -/
structure Consistent (se : Session) : Prop where
  region : Region Anywhere se.state
  separate : se.tree.Separate Standard se.state

theorem consistent_start (n : Tree Span) : (start n).Consistent :=
  ⟨region_start, Tree.separate_unmarked n {}⟩

/-- The tree of a session has grown into the tree of another. -/
abbrev GrowsTo (se se' : Session) : Prop := Grows se.state se.tree se'.state se'.tree

namespace Consistent

/-- **A call keeps a session consistent**, and the tree only grows. -/
theorem call (h : se.Consistent) (path : List Nat) :
    (se.call path).2.Consistent ∧ se.GrowsTo (se.call path).2 := by
  cases hnode : se.tree.get? path with
  | none =>
    rw [call_none hnode]
    exact ⟨h, .refl h.region se.tree⟩
  | some node =>
    have hsep := h.separate.get? hnode
    have hg := infer_grows h.region hsep.owned
    have hsep' := (infer_reproducible node).1 se.state h.region hsep
    rw [call_some hnode]
    exact ⟨⟨hg.evolves.region.all, h.separate.set h.region hg hsep' hnode⟩, hg.set hnode⟩

/-- Calls one after the other keep a session consistent, and the tree only grows. -/
theorem run (h : se.Consistent) (paths : List (List Nat)) :
    (se.run paths).Consistent ∧ se.GrowsTo (se.run paths) := by
  induction paths generalizing se with
  | nil => exact ⟨h, .refl h.region se.tree⟩
  | cons path paths ih =>
    obtain ⟨h₁, hg₁⟩ := h.call path
    obtain ⟨h₂, hg₂⟩ := ih h₁
    exact ⟨h₂, hg₁.trans hg₂⟩

/-- What a call finds is kept at the node, and it is what is found for the node alone. -/
theorem call_reproduces (h : se.Consistent) (hnode : se.tree.get? path = some node) :
    ∃ result, (se.call path).1 = some result ∧
      (se.call path).2.tree.typing? path = result.toOption ∧
      SameOutcome ResolvedAlike (result, (se.call path).2.state)
        (found (infer node.afresh {})) := by
  refine ⟨(infer node se.state).1.1, ?_, ?_, ?_⟩
  · rw [call_some hnode]
  · rw [call_some hnode, Tree.typing?_set hnode, infer_label]
  · rw [call_some hnode]
    exact (infer_reproducible node).2 _ _ h.region region_start (h.separate.get? hnode)

/-- What is known stays known, and is resolved as before. -/
theorem run_keeps (h : se.Consistent) (paths : List (List Nat)) {T : Typing}
    (hT : se.tree.typing? path = some T) :
    (se.run paths).tree.typing? path = some T ∧
      T.apply (se.run paths).state.subst = T.apply se.state.subst := by
  obtain ⟨-, hg⟩ := h.run paths
  exact ⟨hg.completes.kept path T hT,
    hg.evolves.apply_typing h.region (h.separate.typing_owns hT)⟩

end Consistent

/-- The tree of a session has the nodes it had at the start. -/
theorem get?_run_start {n node : Tree Span} (paths : List (List Nat))
    (h : n.get? path = some node) :
    ∃ node', ((start n).run paths).tree.get? path = some node' ∧ node'.erase = node := by
  have herase := ((consistent_start n).run paths).2.completes.erase_eq
  rw [start, Tree.erase_unmarked] at herase
  rw [← herase, Tree.erase, Tree.get?_map, Option.map_eq_some_iff] at h
  exact h

/-- **A call finds what it finds for the node alone, whatever was called before.**  The typing is
equal up to a renaming of variables once it is resolved, and a problem is the same problem.  The
typings that are known stay known, and later calls leave them resolved to exactly the same. -/
theorem history_independent (n : Tree Span) (earlier : List (List Nat)) :
    (∀ path node, n.get? path = some node →
      ∃ result, (((start n).run earlier).call path).1 = some result ∧
        (((start n).run earlier).call path).2.tree.typing? path = result.toOption ∧
        SameOutcome ResolvedAlike (result, (((start n).run earlier).call path).2.state)
          (found (infer node.unmarked {}))) ∧
    ∀ later path T, ((start n).run earlier).tree.typing? path = some T →
      ((start n).run (earlier ++ later)).tree.typing? path = some T ∧
        T.apply ((start n).run (earlier ++ later)).state.subst =
          T.apply ((start n).run earlier).state.subst := by
  have h := ((consistent_start n).run earlier).1
  refine ⟨fun path node hnode => ?_, fun later path T hT => ?_⟩
  · obtain ⟨node', hnode', rfl⟩ := get?_run_start earlier hnode
    exact h.call_reproduces hnode'
  · rw [run_append]
    exact h.run_keeps later hT

/-- A block that fails at its last statement, called on between calls on its nodes. -/
theorem history_independent_failed_block :
    let application : Tree Span := .apply ⟨0, 0⟩ (.var ⟨0, 0⟩ "id") (.tuple ⟨0, 0⟩ [.int ⟨0, 0⟩ 1])
    let program : Tree Span := .block ⟨0, 0⟩
      [.decl ⟨0, 0⟩ "id" (.fn ⟨0, 0⟩ ["x"] (.var ⟨0, 0⟩ "x")), application, .array ⟨0, 0⟩ []]
    let earlier : List (List Nat) := [[0, 0, 0], [2], []]
    program.get? [1] = some application ∧
      (∃ result, (((start program).run earlier).call [1]).1 = some result ∧
        (((start program).run earlier).call [1]).2.tree.typing? [1] = result.toOption ∧
        SameOutcome ResolvedAlike (result, (((start program).run earlier).call [1]).2.state)
          (found (infer application.unmarked {}))) ∧
      ∃ T, ((start program).run earlier).tree.typing? [0, 0] = some T ∧
        ((start program).run (earlier ++ [[1], []])).tree.typing? [0, 0] = some T ∧
        T.apply ((start program).run (earlier ++ [[1], []])).state.subst =
          T.apply ((start program).run earlier).state.subst := by
  intro application program earlier
  -- the first declaration has its typing before the block fails
  have hknown : (((start program).run earlier).tree.typing? [0, 0]).isSome = true := by cbv
  obtain ⟨T, hT⟩ := Option.isSome_iff_exists.mp hknown
  have h := history_independent program earlier
  exact ⟨rfl, h.1 [1] application rfl, T, hT, h.2 [[1], []] [0, 0] T hT⟩

end Session

end LetTyping
