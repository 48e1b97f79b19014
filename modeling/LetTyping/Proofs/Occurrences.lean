import Mathlib
import LetTyping.Proofs.Reported

/-!
# Contexts count occurrences

Without declarations nothing is resolved on the way up a tree, and the context of a node has an
account of the free names beneath it: the names in the order in which they first occur, and for each
of them a type for every time it occurs.  No occurrence is lost, and none is counted twice.

The rules for typings say what contexts are made of, so the account is kept along derivations.
Inference finds contexts with the same names and as many types, at every node.

## Main definitions

* `Tree.freeNames` — the free names of a tree, once for each occurrence.
* `Uses.Tallies` — uses have an account of occurrences.

## Main results

* `Uses.Tallies.union`, `Uses.Tallies.erase` — accounts are put together, and cleared of a name.
* `Derives.tallies` — the uses in a derivation have an account of the free names.
* `Tree.Marked.typed` — every node below one that was inferred has a typing.
* `infer_tallies` — **contexts lose and duplicate nothing.**
-/

namespace LetTyping

/-! ### First occurrences -/

theorem eraseDups_filter (p : String → Bool) (xs : List String) :
    (xs.filter p).eraseDups = xs.eraseDups.filter p := by
  induction xs generalizing p with
  | nil => rfl
  | cons x xs ih =>
    rw [List.eraseDups_cons, ih, List.filter_cons]
    by_cases hx : p x = true
    · rw [if_pos hx, List.eraseDups_cons, List.filter_filter, ih, List.filter_cons, if_pos hx,
        List.filter_filter]
      simp only [Bool.and_comm]
    · rw [if_neg hx, ih, List.filter_cons, if_neg hx, List.filter_filter]
      refine List.filter_congr fun y _ => ?_
      by_cases hy : y = x
      · simp [hy, hx]
      · simp [hy]

theorem nodup_eraseDups (xs : List String) : xs.eraseDups.Nodup := by
  induction xs with
  | nil => exact List.nodup_nil
  | cons x xs ih =>
    rw [List.eraseDups_cons, eraseDups_filter, List.nodup_cons]
    exact ⟨by simp, ih.filter _⟩

/-- What occurs first in the second list is what occurs first there and not in the first list. -/
theorem eraseDups_append_filter (xs ys : List String) :
    (xs ++ ys).eraseDups = xs.eraseDups ++ ys.eraseDups.filter fun y => y ∉ xs.eraseDups := by
  rw [List.eraseDups_append, List.removeAll, eraseDups_filter]
  simp

/-! ### Tables -/

namespace Table

variable {β : Type} {t : Table β} {name : String}

theorem get?_of_mem {b : β} (h : (keys t).Nodup) (hmem : (name, b) ∈ t) :
    get? t name = some b := by
  induction t with
  | nil => cases hmem
  | cons entry t ih =>
    obtain ⟨n, b'⟩ := entry
    rw [keys_cons, List.nodup_cons] at h
    rw [get?_cons]
    rcases List.mem_cons.mp hmem with heq | hmem
    · cases heq
      rw [if_pos rfl]
    · have hne : n ≠ name := by
        rintro rfl
        exact h.1 (List.mem_map.mpr ⟨_, hmem, rfl⟩)
      rw [if_neg hne, ih h.2 hmem]

theorem alter_alter (t : Table β) (name : String) (f g : Option β → β) :
    alter (alter t name f) name g = alter t name fun old => g (some (f old)) := by
  induction t with
  | nil => simp [alter]
  | cons entry t ih =>
    obtain ⟨n, b⟩ := entry
    by_cases hn : n = name
    · simp [alter, hn]
    · simp [alter, hn, ih]

end Table

namespace Uses

variable {τ σ : Type} {c d : Uses τ} {xs ys : List String}

theorem of_union (hd : (Table.keys d).Nodup) (c : Uses τ) (x : String) :
    (union c d).of x = c.of x ++ d.of x := by
  induction d generalizing c with
  | nil => exact (List.append_nil _).symm
  | cons entry d ih =>
    obtain ⟨name, ts⟩ := entry
    rw [Table.keys_cons, List.nodup_cons] at hd
    change (union (addAll c name ts) d).of x = _
    rw [ih hd.2, of_addAll, of_cons]
    by_cases hx : x = name
    · have hnone : of d x = [] := of_eq_nil (hx ▸ hd.1)
      rw [if_pos hx, if_pos hx.symm, hnone, List.append_nil]
    · rw [if_neg hx, if_neg (Ne.symm hx)]

/-- The names that are new come last, in their order. -/
theorem keys_union_eq (hd : (Table.keys d).Nodup) (c : Uses τ) :
    Table.keys (union c d) =
      Table.keys c ++ (Table.keys d).filter fun name => name ∉ Table.keys c := by
  induction d generalizing c with
  | nil => exact (List.append_nil _).symm
  | cons entry d ih =>
    obtain ⟨name, ts⟩ := entry
    rw [Table.keys_cons, List.nodup_cons] at hd
    change Table.keys (union (addAll c name ts) d) = _
    rw [ih hd.2, addAll, Table.keys_alter, Table.keys_cons, List.filter_cons]
    -- a name that is there already keeps its place
    by_cases hname : name ∈ Table.keys c
    · simp [hname]
    -- no name comes twice, so a new one is not among those that follow
    · have hnew : (Table.keys d).filter (fun y => y ∉ Table.keys c ++ [name]) =
          (Table.keys d).filter fun y => y ∉ Table.keys c := by
        refine List.filter_congr fun y hy => ?_
        have hne : y ≠ name := fun heq => hd.1 (heq ▸ hy)
        simp [hne]
      simp only [if_neg hname, hnew]
      simp [hname]

theorem addAll_addAll (c : Uses τ) (name : String) (ts us : List τ) :
    addAll (addAll c name ts) name us = addAll c name (ts ++ us) := by
  rw [addAll, addAll, Table.alter_alter]
  simp only [addAll, Option.getD_some, List.append_assoc]

theorem passOut_addAll (c : Uses τ) (name : String) (ts us : List τ) :
    passOut (addAll c name us) name ts = addAll c name (us ++ ts) := by
  induction ts generalizing us with
  | nil =>
    rw [List.append_nil]
    rfl
  | cons t ts ih =>
    change passOut (addAll (addAll c name us) name [t]) name ts = _
    rw [addAll_addAll, ih, List.append_assoc, List.singleton_append]

/-- Uses may be recorded one by one or all at once, if there are any. -/
theorem passOut_eq_addAll {ts : List τ} (hts : ts ≠ []) (c : Uses τ) (name : String) :
    passOut c name ts = addAll c name ts := by
  cases ts with
  | nil => exact absurd rfl hts
  | cons t ts => exact passOut_addAll c name ts [t]

/-! ### Accounts -/

/-- The uses have an account of occurrences: the names in the order in which they first occur, and
for each of them as many uses as it has occurrences. -/
def Tallies (c : Uses τ) (xs : List String) : Prop :=
  Table.keys c = xs.eraseDups ∧ ∀ x, (c.of x).length = xs.count x

namespace Tallies

theorem nil : Tallies ([] : Uses τ) [] := ⟨rfl, fun _ => rfl⟩

theorem single (name : String) (t : τ) : Tallies [(name, [t])] [name] := by
  refine ⟨rfl, fun x => ?_⟩
  rw [of_cons, List.count_singleton]
  by_cases hx : name = x
  · simp [hx]
  · simp [hx, of]

theorem nodup (h : Tallies c xs) : (Table.keys c).Nodup := h.1 ▸ nodup_eraseDups xs

theorem union (hc : Tallies c xs) (hd : Tallies d ys) : Tallies (c.union d) (xs ++ ys) := by
  refine ⟨?_, fun x => ?_⟩
  · rw [keys_union_eq hd.nodup, hc.1, hd.1, eraseDups_append_filter]
  · rw [of_union hd.nodup, List.length_append, hc.2, hd.2, List.count_append]

theorem erase (h : Tallies c xs) (name : String) :
    Tallies (Table.erase c name) (xs.filter (· ≠ name)) := by
  refine ⟨?_, fun x => ?_⟩
  · rw [Table.keys_erase, h.1, eraseDups_filter]
  · rw [of, Table.get?_erase]
    by_cases hx : x = name
    · rw [if_pos hx, hx, List.count_eq_zero.mpr (by simp)]
      rfl
    · rw [if_neg hx, List.count_filter (by simpa using hx)]
      exact h.2 x

theorem ne_nil (h : Tallies c xs) : ∀ entry ∈ c, entry.2 ≠ [] := by
  rintro ⟨name, ts⟩ hmem rfl
  have hname : name ∈ xs := by
    rw [← List.mem_eraseDups, ← h.1]
    exact List.mem_map_of_mem hmem
  have hcount := h.2 name
  rw [of, Table.get?_of_mem h.nodup hmem] at hcount
  exact absurd hcount (Nat.ne_of_lt (List.count_pos_iff.mpr hname))

theorem map_iff (g : τ → σ) : Tallies (map g c) xs ↔ Tallies c xs := by
  simp only [Tallies, of_map, List.length_map]
  rw [map, Table.keys_mapValues]

end Tallies

end Uses

/-- Without declarations all uses pass out. -/
theorem Resolves.union_of_nil {α : Type} {c out out' : Uses Plain}
    (h : Resolves ([] : Table (Tree α)) c out out') (hc : ∀ entry ∈ c, entry.2 ≠ []) :
    out' = Uses.union out c := by
  induction h using Resolves.induction with
  | nil out => rfl
  | undeclared name ts c out out' _ _ ih =>
    obtain ⟨hts, hc⟩ := List.forall_mem_cons.mp hc
    rw [ih hc, Uses.passOut_eq_addAll hts]
    rfl
  | declared name value ts c c' t d' out out₁ out' hget => cases hget

/-- Parameters are free no longer. -/
theorem Binds.tallies {params : List String} {c c' : Uses Plain} {us : List Plain}
    {xs : List String} (h : Binds params c us c') (hc : c.Tallies xs) :
    c'.Tallies (xs.filter (· ∉ params)) := by
  induction h generalizing xs with
  | nil => simpa using hc
  | @cons param params c u us c' _ _ ih =>
    have hsame : xs.filter (· ∉ param :: params) =
        (xs.filter (· ≠ param)).filter (· ∉ params) := by
      rw [List.filter_filter]
      refine List.filter_congr fun x _ => ?_
      simp [Bool.and_comm]
    rw [hsame]
    exact ih (hc.erase param)

/-! ### Trees -/

mutual

/-- The free names of a tree, once for each occurrence and from left to right.  What occurs in a
function is not free there if it is a parameter. -/
def Tree.freeNames {α : Type} : Tree α → List String
  | .int _ _ => []
  | .var _ name => [name]
  | .tuple _ ts | .array _ ts | .block _ ts => freeNamesList ts
  | .apply _ f a => freeNames f ++ freeNames a
  | .fn _ params body => (freeNames body).filter (· ∉ params)
  | .decl _ _ value | .assign _ _ value | .ret _ value => freeNames value

/-- The free names of some trees. -/
def Tree.freeNamesList {α : Type} : List (Tree α) → List String
  | [] => []
  | t :: ts => freeNames t ++ freeNamesList ts

end

namespace Tree

variable {α β : Type}

@[simp] theorem freeNamesList_eq_flatMap (ts : List (Tree α)) :
    freeNamesList ts = ts.flatMap freeNames := by
  induction ts with
  | nil => rfl
  | cons t ts ih => rw [freeNamesList, ih, List.flatMap_cons]

/-- Labels play no part. -/
theorem freeNames_map (f : α → β) (t : Tree α) : (t.map f).freeNames = t.freeNames := by
  have hlist : ∀ ts : List (Tree α), (∀ t ∈ ts, (t.map f).freeNames = t.freeNames) →
      (ts.map (map f)).flatMap freeNames = ts.flatMap freeNames := by
    intro ts ih
    rw [List.flatMap_map]
    exact List.flatMap_congr ih
  induction t using Tree.induction with
  | tuple l ts ih | array l ts ih | block l ts ih =>
    simp only [map, mapList_eq_map, freeNames, freeNamesList_eq_flatMap, hlist ts ih]
  | int | var => rfl
  | _ => simp_all only [map, freeNames]

/-- Nothing in the tree is a declaration. -/
def Undeclaring (t : Tree α) : Prop := ∀ n ∈ t.subtrees, n.kind ≠ "decl"

theorem undeclaring_iff {t : Tree α} :
    t.Undeclaring ↔ t.kind ≠ "decl" ∧ ∀ c ∈ t.children, c.Undeclaring := forall_subtrees_iff

theorem Undeclaring.of_mem {t n : Tree α} (h : t.Undeclaring) (hn : n ∈ t.subtrees) :
    n.Undeclaring := fun _ hn' => h _ (mem_subtrees_trans hn hn')

theorem undeclaring_map (f : α → β) {t : Tree α} : (t.map f).Undeclaring ↔ t.Undeclaring := by
  induction t using Tree.childInduction with
  | step t ih =>
    have hkind : (t.map f).kind = t.kind := by cases t <;> rfl
    rw [undeclaring_iff, undeclaring_iff, hkind, children_map, List.forall_mem_map]
    exact and_congr_right fun _ => forall₂_congr ih

end Tree

/-! ### Derivations -/

section Derivations

variable {α : Type} {ns : List (Tree α)} {xs : List String}

/-- The node has the account of its free names in every derivation, and declares nothing. -/
def Tree.Counted (n : Tree α) : Prop :=
  ∀ {c t d}, Derives n c t d → c.Tallies n.freeNames ∧ d = []

theorem DerivesAll.tallies (ih : ∀ n ∈ ns, n.Counted) {cs : List (Uses Plain)}
    {ts : List Plain} (h : DerivesAll ns cs ts) {out : Uses Plain} (hout : out.Tallies xs) :
    (cs.foldl Uses.union out).Tallies (xs ++ ns.flatMap Tree.freeNames) := by
  induction ns generalizing cs ts out xs with
  | nil =>
    cases h
    simpa using hout
  | cons n ns ihs =>
    obtain ⟨hn, hns⟩ := List.forall_mem_cons.mp ih
    cases h with
    | cons hhead htail =>
      rw [List.foldl_cons, List.flatMap_cons, ← List.append_assoc]
      exact ihs hns htail (hout.union (hn hhead).1)

theorem DerivesStatements.tallies (ih : ∀ n ∈ ns, n.Counted) {out c : Uses Plain}
    {t t' : Plain} {d : Table (Tree α)} (h : DerivesStatements ns out t [] c t' d)
    (hout : out.Tallies xs) : c.Tallies (xs ++ ns.flatMap Tree.freeNames) ∧ d = [] := by
  induction ns generalizing out t xs with
  | nil =>
    cases h
    exact ⟨by simpa using hout, rfl⟩
  | cons n ns ihs =>
    obtain ⟨hn, hns⟩ := List.forall_mem_cons.mp ih
    cases h with
    | cons hhead hresolves htail =>
      obtain ⟨htallies, rfl⟩ := hn hhead
      rw [Table.insertAll_nil] at hresolves htail
      obtain rfl := hresolves.union_of_nil htallies.ne_nil
      rw [List.flatMap_cons, ← List.append_assoc]
      exact ihs hns htail (hout.union htallies)

/-- **The uses in a derivation have an account of the free names**, if there are no
declarations. -/
theorem Derives.tallies {n : Tree α} (hn : n.Undeclaring) : n.Counted := by
  induction n using Tree.induction with
  | int l value =>
    rintro _ _ _ ⟨⟩
    exact ⟨.nil, rfl⟩
  | var l name =>
    rintro _ _ _ ⟨⟩
    exact ⟨.single name _, rfl⟩
  | tuple l elems ih =>
    intro c t d h
    have hchildren := (Tree.undeclaring_iff.mp hn).2
    cases h with
    | tuple hall =>
      have htallies := hall.tallies (fun e he => ih e he (hchildren e he)) .nil
      rw [Tree.freeNames, Tree.freeNamesList_eq_flatMap]
      exact ⟨htallies, rfl⟩
  | array l elems _ => exact fun h => by cases h
  | assign l name value _ => exact fun h => by cases h
  | decl l name value _ => exact absurd rfl (Tree.undeclaring_iff.mp hn).1
  | apply l fn arg ihf iha =>
    intro c t d h
    have hchildren := (Tree.undeclaring_iff.mp hn).2
    cases h with
    | apply hfn harg =>
      exact ⟨(ihf (hchildren fn (by simp [Tree.children])) hfn).1.union
        (iha (hchildren arg (by simp [Tree.children])) harg).1, rfl⟩
  | fn l params body ih =>
    intro c t d h
    have hchildren := (Tree.undeclaring_iff.mp hn).2
    cases h with
    | fn hbody hbinds =>
      -- binding takes the parameters out of the account, as it takes them out of the free names
      exact ⟨hbinds.tallies (ih (hchildren body (by simp [Tree.children])) hbody).1, rfl⟩
  | ret l value ih =>
    intro c t d h
    have hchildren := (Tree.undeclaring_iff.mp hn).2
    cases h with
    | ret hvalue => exact ih (hchildren value (by simp [Tree.children])) hvalue
  | block l stmts ih =>
    intro c t d h
    have hchildren := (Tree.undeclaring_iff.mp hn).2
    cases h with
    | block hstmts =>
      rw [Tree.freeNames, Tree.freeNamesList_eq_flatMap]
      exact hstmts.tallies (fun s hs => ih s hs (hchildren s hs)) .nil

end Derivations

/-! ### Inference -/

variable {st st' : State} {T : Typing} {t : Tree Mark}

theorem infer_keeps {n t : Tree Mark} (h : infer n st = ((.ok T, t), st')) :
    ∃ U, t.label.typing = some U := by
  have hlabel := infer_label n st
  rw [h] at hlabel
  exact ⟨T, hlabel⟩

/-- The nodes directly below a node that is inferred have typings. -/
theorem infer_children_typed {c : Tree Span} (h : infer c.unmarked st = ((.ok T, t), st')) :
    ∀ n ∈ t.children, ∃ U, n.label.typing = some U := by
  cases c with
  | int l value =>
    rw [Tree.unmarked_int, infer_int rfl] at h
    obtain ⟨-, rfl, -⟩ := Tree.settle_run h
    exact List.forall_mem_nil _
  | var l name =>
    rw [Tree.unmarked_var, infer_var rfl] at h
    obtain ⟨-, rfl, -⟩ := Tree.settle_run h
    exact List.forall_mem_nil _
  | array l elems =>
    rw [Tree.unmarked_array, infer_array rfl] at h
    cases h
  | assign l name value =>
    rw [Tree.unmarked_assign, infer_assign rfl] at h
    cases h
  | tuple l elems =>
    obtain ⟨Ts, ts, hall, -, rfl⟩ := infer_tuple_ok h
    -- the elements are labelled with the typings of the list
    have hlabels := inferAll_labels (congrArg (·.1.1) hall)
    rw [hall] at hlabels
    intro n hn
    have hmem : n.label.typing ∈ Ts.map some := hlabels ▸ List.mem_map_of_mem hn
    obtain ⟨U, -, hU⟩ := List.mem_map.mp hmem
    exact ⟨U, hU.symm⟩
  | apply l fn arg =>
    obtain ⟨fnRaw, fn', st₁, argRaw, arg', st₂, hfn, harg, -, rfl⟩ := infer_apply_ok h
    exact List.forall_mem_cons.mpr ⟨infer_keeps hfn, List.forall_mem_singleton.mpr
      (infer_keeps harg)⟩
  | fn l params body =>
    obtain ⟨raw, body', st₁, us, c, hbody, -, -, rfl⟩ := infer_fn_ok h
    exact List.forall_mem_singleton.mpr (infer_keeps hbody)
  | decl l name value =>
    obtain ⟨raw, value', hvalue, -, rfl⟩ := infer_decl_ok h
    exact List.forall_mem_singleton.mpr (infer_keeps hvalue)
  | ret l value =>
    obtain ⟨value', hvalue, rfl⟩ := infer_ret_ok h
    exact List.forall_mem_singleton.mpr (infer_keeps hvalue)
  | block l stmts =>
    obtain ⟨ts, rfl, -, hts⟩ := infer_block_shape h
    exact hts

/-- Where all known typings are recorded and the root has one, every node has one. -/
theorem Tree.Marked.typed (h : t.Marked (Recorded st)) (hroot : ∃ U, t.label.typing = some U) :
    ∀ n ∈ t.subtrees, ∃ U, n.label.typing = some U := by
  induction t using Tree.childInduction with
  | step t ih =>
    obtain ⟨hrecorded, hchildren⟩ := Tree.marked_iff.mp h
    obtain ⟨U, hU⟩ := hroot
    obtain ⟨c, st₁, st₂, -, hinfer, -⟩ := hrecorded U hU
    have htyped := infer_children_typed hinfer
    exact Tree.forall_subtrees_iff.mpr ⟨⟨U, hU⟩, fun c hc =>
      ih c hc (hchildren c hc) (htyped c hc)⟩

/-- **Contexts lose and duplicate nothing.**  Inference leaves a typing at every node.  If there are
no declarations and no application has failed, the names of its context are those with a free
occurrence beneath the node, in the order of their first occurrences, and each of them has a type
for every free occurrence. -/
theorem infer_tallies {tree : Tree Span} (htree : ∀ n ∈ tree.subtrees, n.kind ≠ "decl")
    {root : Tree Mark} (h : infer tree.unmarked {} = ((.ok T, root), st)) (hroot : root.Succeeded) :
    ∀ n ∈ root.subtrees, ∃ U, n.label.typing = some U ∧
      Table.keys U.context = n.freeNames.eraseDups ∧
      ∀ name, (U.context.uses name).length = n.freeNames.count name := by
  obtain rfl := infer_erase h
  have hrecorded := infer_recorded _ region_start h
  have hundeclaring : root.Undeclaring := (Tree.undeclaring_map Mark.span).mp htree
  intro n hn
  obtain ⟨U, hU⟩ := hrecorded.typed (infer_keeps h) n hn
  obtain ⟨c, st₁, st₂, hst₁, hinfer, -⟩ := hrecorded n hn U hU
  refine ⟨U, hU, ?_⟩
  -- the node was inferred from its own text, for which there is a derivation
  obtain rfl := infer_erase hinfer
  have hsound := infersSoundly _ hst₁ hinfer (hroot.of_mem hn)
  have hderives := (sound_iff.mp hsound).1 .var
  have hn' : n.erase.Undeclaring := (Tree.undeclaring_map Mark.span).mpr (hundeclaring.of_mem hn)
  have htallies := (Derives.tallies hn' hderives).1
  rw [Typing.apply, Typing.mapTypes_context, Uses.Tallies.map_iff, Uses.Tallies.map_iff,
    Tree.erase, Tree.freeNames_map] at htallies
  exact htallies

/-- In `(y, fn(x) f(x, y)) g(y)` the parameter has no entry, and `y` has three uses. -/
theorem infer_tallies_parameter :
    let l : Span := ⟨0, 0⟩
    let call : Tree Span := .apply l (.var l "f") (.tuple l [.var l "x", .var l "y"])
    let tree : Tree Span := .block l [.tuple l [.var l "y", .fn l ["x"] call],
      .apply l (.var l "g") (.tuple l [.var l "y"])]
    (∀ n ∈ tree.subtrees, n.kind ≠ "decl") ∧
      ∃ T root st, infer tree.unmarked {} = ((.ok T, root), st) ∧ root.Succeeded ∧
        ∃ U, root.label.typing = some U ∧ Table.keys U.context = ["y", "f", "g"] ∧
          (U.context.uses "y").length = 3 ∧ (U.context.uses "x").length = 0 := by
  intro l call tree
  have htree : ∀ n ∈ tree.subtrees, n.kind ≠ "decl" := by decide
  have hok : (infer tree.unmarked {}).1.1.isOk = true := by cbv
  have hsucc : (infer tree.unmarked {}).1.2.Succeeded := of_decide_eq_true (by cbv)
  rcases hres : infer tree.unmarked {} with ⟨⟨problem | T, root⟩, st⟩ <;> rw [hres] at hok hsucc
  · cases hok
  obtain ⟨U, hU, hkeys, huses⟩ := infer_tallies htree hres hsucc root root.mem_subtrees_self
  have hnames : root.freeNames = tree.freeNames := by
    rw [← infer_erase hres, Tree.erase, Tree.freeNames_map]
  rw [hnames] at hkeys huses
  exact ⟨htree, T, root, st, rfl, hsucc, U, hU, hkeys, huses "y", huses "x"⟩

end LetTyping
