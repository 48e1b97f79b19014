import Mathlib
import LetTyping.Proofs.Blame
import LetTyping.Proofs.Fatal
import LetTyping.Proofs.Recursion

/-!
# Where unbound names are used

A name that is left when a program is inferred and its free names are resolved is reported at a use
of the name.  The use is looked for in the tree, from left to right: not in a function that has the
name as a parameter, and in a block only up to a declaration of the name.  Inference goes another
way: names travel upward in contexts, and the names that a declaration uses travel only when the
declared name is used.  Both agree in that a name that is free in a typing has a use that the search
finds, so a name is never reported at the whole program for want of a use.

## Main definitions

* `Tree.FreeUse` — a name is used at the end of a path, and nothing on the way binds it.
* `Typing.Sourced` — the names that a typing and its declarations use are free.
* `Gathers` — what holds of a block after some statements.

## Main results

* `firstUse_map` — the search does not look at labels.
* `Tree.exists_freeUse` — what the search finds is a free use.
* `ResolutionRun.passed` — names that pass out are undeclared.
* `Gathers.absorb`, `Tree.result_sourced` — **the search finds a use of every free name of a
  typing.**
* `check_unbound_located` — **unbound names are reported at a free use.**
-/

namespace LetTyping

variable {α β : Type} {name : String} {t : Tree α} {ts : List (Tree α)}

/-! ### Looking for free uses -/

theorem firstUseList_eq (name : String) (ts : List (Tree α)) :
    firstUseList name ts = ts.findSome? (firstUse name) := by
  induction ts with
  | nil => rfl
  | cons t ts ih =>
    rw [firstUseList, ih, List.findSome?_cons]
    cases firstUse name t <;> rfl

/-- In a block the search ends at a declaration of the name. -/
theorem firstUseBlock_eq (name : String) (ts : List (Tree α)) :
    firstUseBlock name ts = (ts.takeWhile fun t => !declares name t).findSome? (firstUse name) := by
  induction ts with
  | nil => rfl
  | cons t ts ih =>
    rw [firstUseBlock, List.takeWhile_cons]
    by_cases h : declares name t = true
    · simp [h]
    · rw [if_neg h, ih, if_pos (by simpa using h), List.findSome?_cons]
      cases firstUse name t <;> rfl

theorem declares_map (f : α → β) (name : String) (t : Tree α) :
    declares name (t.map f) = declares name t := by
  cases t <;> rfl

theorem findSome?_firstUse_map (f : α → β)
    (h : ∀ t ∈ ts, firstUse name (t.map f) = (firstUse name t).map f) :
    (ts.map (Tree.map f)).findSome? (firstUse name) = (ts.findSome? (firstUse name)).map f := by
  induction ts with
  | nil => rfl
  | cons t ts ih =>
    rw [List.forall_mem_cons] at h
    rw [List.map_cons, List.findSome?_cons, List.findSome?_cons, h.1, ih h.2]
    cases firstUse name t <;> rfl

/-- What is found does not depend on the labels. -/
theorem firstUse_map (f : α → β) (name : String) (t : Tree α) :
    firstUse name (t.map f) = (firstUse name t).map f := by
  induction t using Tree.induction with
  | int l v => rfl
  | var l x =>
    rw [Tree.map, firstUse, firstUse]
    split <;> rfl
  | tuple l ts ih | array l ts ih =>
    rw [Tree.map, Tree.mapList_eq_map, firstUse, firstUse, firstUseList_eq, firstUseList_eq]
    exact findSome?_firstUse_map f ih
  | apply l fn arg ihf iha =>
    rw [Tree.map, firstUse, firstUse, ihf, iha]
    cases firstUse name fn <;> rfl
  | fn l params body ih =>
    rw [Tree.map, firstUse, firstUse, ih]
    split <;> rfl
  | decl l x value ih | assign l x value ih => exact ih
  | ret l value ih => exact ih
  | block l ts ih =>
    -- labels have no influence on what is declared, so both searches stop at the same statement
    have hdeclares : (fun t => !declares name t) ∘ Tree.map f = fun t => !declares name t :=
      funext fun t => congrArg _ (declares_map f name t)
    rw [Tree.map, Tree.mapList_eq_map, firstUse, firstUse, firstUseBlock_eq, firstUseBlock_eq,
      List.takeWhile_map, hdeclares]
    exact findSome?_firstUse_map f fun t ht => ih t ((List.takeWhile_prefix _).subset ht)

namespace Tree

/-- The root binds the name for what stands at its child `i`: as a parameter, or by a declaration
that is this child or stands before it. -/
def Binds (name : String) (i : Nat) : Tree α → Prop
  | .fn _ params _ => name ∈ params
  | .block _ stmts => ∃ s ∈ stmts.take (i + 1), declares name s = true
  | _ => False

/-- The name is used at the end of the path, with the label `l`, and no node on the way binds it. -/
structure FreeUse (name : String) (t : Tree α) (path : List Nat) (l : α) : Prop where
  used : t.get? path = some (.var l name)
  free : ∀ above i below, path = above ++ i :: below → ∀ n, t.get? above = some n → ¬n.Binds name i

theorem FreeUse.here (l : α) (name : String) : (var l name).FreeUse name [] l :=
  ⟨rfl, fun above i below h => by simp at h⟩

theorem FreeUse.below {c : Tree α} {path : List Nat} {l : α} {i : Nat} (h : c.FreeUse name path l)
    (hi : t.children[i]? = some c) (hbinds : ¬t.Binds name i) : t.FreeUse name (i :: path) l := by
  refine ⟨get?_below hi h.used, fun above j below heq n hn => ?_⟩
  cases above with
  | nil =>
    obtain ⟨rfl, rfl⟩ : i = j ∧ path = below := by simpa using heq
    obtain rfl : t = n := Option.some.inj hn
    exact hbinds
  | cons k above =>
    obtain ⟨rfl, rfl⟩ : i = k ∧ path = above ++ j :: below := by simpa using heq
    rw [get?_cons, hi, Option.bind_some] at hn
    exact h.free above j below rfl n hn

/-- **What is found is a free use.** -/
theorem exists_freeUse {l : α} (h : firstUse name t = some l) : ∃ path, t.FreeUse name path l := by
  induction t using Tree.induction with
  | int l' v => cases h
  | var l' x =>
    rw [firstUse] at h
    split at h
    · next hx =>
      rw [hx, Option.some.inj h]
      exact ⟨[], .here l name⟩
    · cases h
  | tuple l' ts ih | array l' ts ih =>
    rw [firstUse, firstUseList_eq] at h
    obtain ⟨c, hc, h⟩ := List.exists_of_findSome?_eq_some h
    obtain ⟨i, hi⟩ := List.getElem?_of_mem hc
    obtain ⟨path, hpath⟩ := ih c hc h
    exact ⟨i :: path, hpath.below hi id⟩
  | apply l' fn arg ihf iha =>
    rw [firstUse, Option.or_eq_some_iff] at h
    rcases h with h | ⟨-, h⟩
    · obtain ⟨path, hpath⟩ := ihf h
      exact ⟨0 :: path, hpath.below rfl id⟩
    · obtain ⟨path, hpath⟩ := iha h
      exact ⟨1 :: path, hpath.below rfl id⟩
  | fn l' params body ih =>
    rw [firstUse] at h
    split at h
    · cases h
    · next hname =>
      obtain ⟨path, hpath⟩ := ih h
      exact ⟨0 :: path, hpath.below rfl hname⟩
  | decl l' x value ih | assign l' x value ih =>
    obtain ⟨path, hpath⟩ := ih h
    exact ⟨0 :: path, hpath.below rfl id⟩
  | ret l' value ih =>
    obtain ⟨path, hpath⟩ := ih h
    exact ⟨0 :: path, hpath.below rfl id⟩
  | block l' ts ih =>
    rw [firstUse, firstUseBlock_eq] at h
    obtain ⟨before, c, after, hts, hc, -⟩ := List.findSome?_eq_some_iff.mp h
    have hsplit : ts = before ++ c :: (after ++ ts.dropWhile fun t => !declares name t) := by
      rw [← List.cons_append, ← List.append_assoc, ← hts, List.takeWhile_append_dropWhile]
    obtain ⟨path, hpath⟩ := ih c (by rw [hsplit]; simp) hc
    refine ⟨before.length :: path, hpath.below ?_ ?_⟩
    · rw [children, hsplit]
      simp
    · -- the statements up to the one with the use are among those before a declaration
      rintro ⟨s, hs, hdeclares⟩
      have htake : ts.take (before.length + 1) = before ++ [c] := by
        rw [hsplit, List.take_append]
        simp
      have hmem : s ∈ ts.takeWhile fun t => !declares name t := by
        rw [hts]
        rw [htake] at hs
        simp at hs ⊢
        tauto
      have := List.mem_takeWhile_imp hmem
      rw [hdeclares] at this
      cases this

end Tree

/-! ### Free names have uses -/

/-- Names that pass out are undeclared, and come from the context or from a declaration. -/
theorem ResolutionRun.passed {defined : Defined} {span : Span} {depth : Nat} {chain : List String}
    {context out : Context} {st : State} {res : Outcome Unit Context × State}
    (hrun : ResolutionRun defined span depth chain context out st res) :
    ∀ x ∈ Table.keys res.1.2, x ∈ Table.keys out ∨ x ∉ Table.keys defined ∧
      (x ∈ Table.keys context ∨ ∃ e ∈ defined, x ∈ Table.keys e.2.context) := by
  induction hrun with
  | nil => exact fun x hx => Or.inl hx
  | @undeclared _ _ name uses context out _ _ hget _ ih =>
    intro x hx
    -- a name that passes out is this one, or was there before
    have hpass : ∀ x ∈ Table.keys (Uses.passOut out name uses), x ∈ Table.keys out ∨ x = name :=
      Uses.keys_passOut (P := fun x => x ∈ Table.keys out ∨ x = name) (fun x hx => Or.inl hx)
        (Or.inr rfl) uses
    rcases ih x hx with hx | ⟨hx, hx'⟩
    · rcases hpass x hx with hx | rfl
      · exact Or.inl hx
      · exact Or.inr ⟨Table.not_mem_keys_of_get? hget, Or.inl List.mem_cons_self⟩
    · exact Or.inr ⟨hx, hx'.imp (List.mem_cons_of_mem _) id⟩
  | recursive => exact fun x hx => Or.inl hx
  | clash => exact fun x hx => Or.inl hx
  | fail hget _ _ _ ih =>
    intro x hx
    rcases ih x hx with hx | ⟨hx, hx'⟩
    · exact Or.inl hx
    -- the names of a copy are those of its declaration
    · refine Or.inr ⟨hx, Or.inr (hx'.elim (fun hx => ⟨_, Table.mem_of_get? hget, ?_⟩) id)⟩
      rwa [keys_context_instantiate] at hx
  | declared hget _ _ _ _ ih ihrest =>
    intro x hx
    rcases ihrest x hx with hx | ⟨hx, hx'⟩
    · rcases ih x hx with hx | ⟨hx, hx'⟩
      · exact Or.inl hx
      · refine Or.inr ⟨hx, Or.inr (hx'.elim (fun hx => ⟨_, Table.mem_of_get? hget, ?_⟩) id)⟩
        rwa [keys_context_instantiate] at hx
    · exact Or.inr ⟨hx, hx'.imp (List.mem_cons_of_mem _) id⟩

namespace Typing

variable {T : Typing} {free : String → Prop}

/-- The names that a typing uses are free, and so are the names that its declarations use, but for
those that it declares itself. -/
structure Sourced (free : String → Prop) (T : Typing) : Prop where
  uses : ∀ x ∈ Table.keys T.context, free x
  values : ∀ e ∈ T.defined, ∀ x ∈ Table.keys e.2.context, x ∈ Table.keys T.defined ∨ free x

theorem sourced_of_nil (h : T.defined = []) (huses : ∀ x ∈ Table.keys T.context, free x) :
    T.Sourced free :=
  ⟨huses, by simp [h]⟩

theorem Sourced.mapTypes (h : T.Sourced free) (g : Ty → Ty) : (T.mapTypes g).Sourced free := by
  constructor
  · rw [mapTypes_context, Uses.keys_map]
    exact h.uses
  · rw [mapTypes_defined, Table.keys_mapValues, Table.mapValues, List.forall_mem_map]
    intro e he x hx
    rw [mapTypes_context, Uses.keys_map] at hx
    exact h.values e he x hx

theorem Sourced.instantiate (h : T.Sourced free) (st : State) :
    (LetTyping.instantiate T st).1.Sourced free := (h.mapTypes _).mapTypes _

end Typing

/-! ### Blocks -/

/-- What a block has after some statements: its free names are used in the statements before any
declaration of theirs, and the names that the statements declare are known. -/
structure Gathers (stmts : List (Tree Span)) (sofar : Typing) : Prop where
  sourced : sofar.Sourced fun x => (firstUseBlock x stmts).isSome
  declared : ∀ s ∈ stmts, ∀ x, declares x s = true → x ∈ Table.keys sofar.defined

theorem firstUseBlock_isSome {stmts : List (Tree α)} :
    (firstUseBlock name stmts).isSome ↔
      ∃ s ∈ stmts.takeWhile fun t => !declares name t, (firstUse name s).isSome := by
  rw [firstUseBlock_eq, List.findSome?_isSome_iff]

/-- More statements at the end of a block hide no use. -/
theorem firstUseBlock_append {stmts : List (Tree α)} (h : (firstUseBlock name stmts).isSome)
    (more : List (Tree α)) : (firstUseBlock name (stmts ++ more)).isSome := by
  rw [firstUseBlock_isSome] at h ⊢
  obtain ⟨s, hs, hsome⟩ := h
  refine ⟨s, ?_, hsome⟩
  rw [List.takeWhile_append]
  split
  · exact List.mem_append_left _ ((List.takeWhile_prefix _).subset hs)
  · exact hs

/-- A use in the last statement of a block counts if no statement declares the name. -/
theorem firstUseBlock_last {stmts : List (Tree α)} {s : Tree α} (h : (firstUse name s).isSome)
    (hnone : ∀ t ∈ stmts ++ [s], declares name t = false) :
    (firstUseBlock name (stmts ++ [s])).isSome := by
  rw [firstUseBlock_isSome]
  refine ⟨s, ?_, h⟩
  rw [List.takeWhile_eq_self_iff.mpr fun t ht => by rw [hnone t ht]; rfl]
  simp

/-- **One more statement.** -/
theorem Gathers.absorb {stmts : List (Tree Span)} {s : Tree Span} {sofar T T' : Typing}
    {span : Span} {st st' : State} (h : Gathers stmts sofar)
    (hT : T.Sourced fun x => (firstUse x s).isSome)
    (hdecl : ∀ x, declares x s = true → x ∈ Table.keys T.defined)
    (habs : absorb sofar span T st = (.ok T', st')) : Gathers (stmts ++ [s]) T' := by
  obtain ⟨huses, hvalues⟩ := hT.instantiate st
  obtain ⟨result, out, st₁, hrun, heq⟩ := absorb_run sofar span T st
  rw [heq] at habs
  cases result with
  | error problem => cases habs
  | ok _ =>
    cases habs
    have hkeys : ∀ x, x ∈ Table.keys sofar.defined ∨ x ∈ Table.keys T.defined →
        x ∈ Table.keys (Table.insertAll sofar.defined (instantiate T st).1.defined) := fun x hx =>
      Table.mem_keys_insertAll_of (by rwa [keys_defined_instantiate])
    have hdeclared : ∀ t ∈ stmts ++ [s], ∀ x, declares x t = true →
        x ∈ Table.keys (Table.insertAll sofar.defined (instantiate T st).1.defined) := by
      intro t ht x hx
      rcases List.mem_append.mp ht with ht | ht
      · exact hkeys x (Or.inl (h.declared t ht x hx))
      · rw [List.mem_singleton.mp ht] at hx
        exact hkeys x (Or.inr (hdecl x hx))
    -- a use that is not declared so far counts for the block
    have hlast : ∀ x, x ∉ Table.keys (Table.insertAll sofar.defined (instantiate T st).1.defined) →
        (firstUse x s).isSome → (firstUseBlock x (stmts ++ [s])).isSome := fun x hx hsome =>
      firstUseBlock_last hsome fun t ht => by
        by_contra hne
        exact hx (hdeclared t ht x (by simpa using hne))
    have hentries : ∀ e ∈ Table.insertAll sofar.defined (instantiate T st).1.defined,
        ∀ x ∈ Table.keys e.2.context,
          x ∈ Table.keys (Table.insertAll sofar.defined (instantiate T st).1.defined) ∨
            (firstUseBlock x (stmts ++ [s])).isSome := by
      intro e he x hx
      rw [or_iff_not_imp_left]
      intro hnot
      rcases Table.mem_insertAll he with he | he
      · rcases h.sourced.values e he x hx with hx | hx
        · exact absurd (hkeys x (Or.inl hx)) hnot
        · exact firstUseBlock_append hx [s]
      · rcases hvalues e he x hx with hx | hx
        · rw [keys_defined_instantiate] at hx
          exact absurd (hkeys x (Or.inr hx)) hnot
        · exact hlast x hnot hx
    refine ⟨⟨fun x hx => ?_, hentries⟩, hdeclared⟩
    rcases hrun.passed x hx with hx | ⟨hnot, hx | ⟨e, he, hx⟩⟩
    · exact firstUseBlock_append (h.sourced.uses x hx) [s]
    · exact hlast x hnot (huses x hx)
    · exact (hentries e he x hx).resolve_left hnot

/-- The statements of a block one after another. -/
theorem blockResult_gathers {ns : List (Tree Span)}
    (ih : ∀ n ∈ ns, ∀ {st T st'}, n.result st = (.ok T, st') →
      T.Sourced fun x => (firstUse x n).isSome) :
    ∀ {stmts sofar st T st'}, Gathers stmts sofar → blockResult sofar ns st = (.ok T, st') →
      Gathers (stmts ++ ns) T := by
  induction ns with
  | nil =>
    intro stmts sofar st T st' h hres
    cases hres
    rwa [List.append_nil]
  | cons n ns ihs =>
    intro stmts sofar st T st' h hres
    rw [List.forall_mem_cons] at ih
    rw [blockResult_cons, Infer.lift_bind_apply] at hres
    obtain ⟨raw, st₁, hn, hres⟩ := Infer.bind_ok hres
    obtain ⟨sofar', st₂, habs, hres⟩ := Infer.bind_ok hres
    -- what a statement declares by its form is declared by its typing too
    have hdecl : ∀ x, declares x n = true → x ∈ Table.keys raw.defined := by
      intro x hx
      cases n with
      | decl l y value =>
        obtain rfl : y = x := of_decide_eq_true hx
        rw [Tree.result_decl] at hn
        obtain ⟨V, st₃, -, hn⟩ := Infer.bind_ok hn
        cases hn
        exact List.mem_singleton_self y
      | _ => cases hx
    have hnext := ihs ih.2 (h.absorb (ih.1 hn) hdecl habs) hres
    rwa [List.append_assoc] at hnext

/-- **The search finds a use of every free name of a typing.** -/
theorem Tree.result_sourced (n : Tree Span) :
    ∀ {st T st'}, n.result st = (.ok T, st') → T.Sourced fun x => (firstUse x n).isSome := by
  induction n using Tree.induction with
  | int l value =>
    intro st T st' h
    rw [result_int] at h
    cases h
    exact Typing.sourced_of_nil rfl (by simp [Typing.closed, Table.keys])
  | var l name =>
    intro st T st' h
    rw [result_var] at h
    cases h
    refine Typing.sourced_of_nil rfl fun x hx => ?_
    obtain rfl : x = name := List.mem_singleton.mp hx
    simp [firstUse]
  | array l elems _ =>
    intro st T st' h
    rw [result_array] at h
    cases h
  | assign l name value _ =>
    intro st T st' h
    rw [result_assign] at h
    cases h
  | tuple l elems ih =>
    intro st T st' h
    rw [result_tuple] at h
    obtain ⟨Ts, st₁, hns, h⟩ := Infer.bind_ok h
    cases h
    refine Typing.sourced_of_nil rfl fun x hx => ?_
    obtain ⟨T, hT, hx⟩ := mem_keys_tupleTyping hx
    -- a name of the tuple is a name of one of its elements
    obtain ⟨n, hn, st₂, st₃, hres⟩ := results_mem hns T hT
    rw [firstUse, firstUseList_eq, List.findSome?_isSome_iff]
    exact ⟨n, hn, (ih n hn hres).uses x hx⟩
  | apply l fn arg ihf iha =>
    intro st T st' h
    rw [result_apply] at h
    obtain ⟨fnRaw, st₁, hfn, h⟩ := Infer.bind_ok h
    rw [Infer.lift_bind_apply] at h
    obtain ⟨argRaw, st₂, harg, h⟩ := Infer.bind_ok h
    rw [Infer.lift_bind_apply, Infer.lift_apply, applyTypings_eq] at h
    split at h
    · cases h
      -- the function is searched first, so a use in either of them is found
      refine Typing.sourced_of_nil rfl (Uses.keys_union (fun x hx => ?_) fun x hx => ?_)
      · have := ((ihf hfn).instantiate st₁).uses x hx
        simp [firstUse, this]
      · have := ((iha harg).instantiate st₂).uses x hx
        simp [firstUse, this]
    · cases h
      exact Typing.sourced_of_nil rfl (by simp [Typing.closed, Table.keys])
  | fn l params body ih =>
    intro st T st' h
    rw [result_fn] at h
    obtain ⟨raw, st₁, hbody, h⟩ := Infer.bind_ok h
    rw [Infer.lift_bind_apply, fnTyping] at h
    obtain ⟨⟨ts, c⟩, st₂, hbind, h⟩ := Infer.bind_ok h
    cases h
    refine Typing.sourced_of_nil rfl fun x hx => ?_
    -- what is left of the body's names is no parameter, so the search goes on below
    obtain ⟨hmem, hnot⟩ := bindParams_keys l params hbind x hx
    rw [firstUse, if_neg hnot]
    exact ((ih hbody).instantiate st₁).uses x hmem
  | decl l name value ih =>
    intro st T st' h
    rw [result_decl] at h
    obtain ⟨raw, st₁, hvalue, h⟩ := Infer.bind_ok h
    cases h
    refine ⟨by simp [declTyping, Table.keys], ?_⟩
    rw [declTyping, List.forall_mem_singleton]
    exact fun x hx => Or.inr ((ih hvalue).uses x hx)
  | ret l value ih =>
    intro st T st' h
    rw [result_ret] at h
    exact ih h
  | block l stmts ih =>
    intro st T st' h
    rw [result_block] at h
    have hstart : Gathers [] (.closed .unit) :=
      ⟨Typing.sourced_of_nil rfl (by simp [Typing.closed, Table.keys]), by simp⟩
    exact (blockResult_gathers ih hstart h).sourced

/-- The names that the builtin ones leave are free names of the program. -/
theorem mem_keys_unresolved {withPrelude : Bool} {scope : Defined} {context unresolved : Context}
    {span : Span} {st st₁ resolved : State} (hscope : builtins withPrelude st = (scope, st₁))
    (hresolve : resolve [] scope span context st₁ = (.ok unresolved, resolved)) :
    ∀ x ∈ Table.keys unresolved, x ∈ Table.keys context ∧ x ∉ Table.keys scope := by
  -- builtin declarations use no names, so nothing is left that was not there in the beginning
  have hclosed := (builtins_closed withPrelude st).1
  rw [hscope] at hclosed
  have hrun := resolutionRun scope span scope.length [] context [] st₁
  rw [resolve_eq] at hresolve
  rcases hnames : resolveNames scope span scope.length [] context [] st₁ with
    ⟨⟨problem | _, out⟩, st₂⟩ <;> rw [hnames] at hresolve hrun
  · cases hresolve
  · cases hresolve
    intro x hx
    rcases hrun.passed x hx with hx | ⟨hnot, hx | ⟨e, he, hx⟩⟩
    · exact absurd hx List.not_mem_nil
    · exact ⟨hx, hnot⟩
    · rw [hclosed e he] at hx
      exact absurd hx List.not_mem_nil

/-- **Every unbound name is reported at a free use of the name.**  The search in the tree finds a
use of every name that inference leaves free, so in particular of every name that is still
unresolved in the end; and a problem about an unbound name is at the use that is found.  This use
stands beneath no function with the name as a parameter, and neither in nor after a declaration of
the name among the statements of a block around it. -/
theorem check_unbound_located [Alphabet] {withPrelude : Bool} {source : String} {c : Checked}
    {events : List Event} (h : check withPrelude source = (.ok c, events)) :
    ∃ tree, parse source = .ok tree ∧
      (∀ name ∈ Table.keys c.typing.context, (firstUse name c.root).isSome) ∧
      ∀ name span, ⟨.unbound name, span⟩ ∈ c.problems →
        name ∈ Table.keys c.typing.context ∧
        (∃ m, firstUse name c.root = some m ∧ m.span = span) ∧
        ∃ path, tree.FreeUse name path span := by
  obtain ⟨tree, T, root, st, st', hparse, hinfer, hcheck⟩ := check_run h
  obtain ⟨scope, st₁, unresolved, resolved, hscope, hresolve, rfl⟩ := checkInferred_run hcheck
  -- inference keeps the tree, so the search may be made before it or after it
  have hfirst : ∀ name, firstUse name tree = (firstUse name root).map Mark.span := fun name => by
    rw [← infer_erase hinfer, Tree.erase, firstUse_map]
  have hsome : ∀ name ∈ Table.keys T.context, (firstUse name root).isSome := fun name hname => by
    have := (tree.result_sourced (Tree.result_of_infer hinfer)).uses name hname
    rwa [hfirst, Option.isSome_map] at this
  refine ⟨tree, hparse, hsome, fun name span hproblem => ?_⟩
  rcases mem_problems_checkResolved.mp hproblem with ⟨name', hname', heq⟩ | hmem
  · obtain ⟨hval, hspan⟩ := Located.mk.inj heq
    obtain rfl : name' = name := TypeCause.unbound.inj hval
    have hname := (mem_keys_unresolved hscope hresolve name' hname').1
    obtain ⟨m, hm⟩ := Option.isSome_iff_exists.mp (hsome name' hname)
    rw [hm, Option.getD_some] at hspan
    refine ⟨hname, ⟨m, hm, hspan⟩, Tree.exists_freeUse ?_⟩
    rw [hfirst, hm, Option.map_some, hspan]
  -- the other problems are failed applications, which are not about names
  · obtain ⟨n, -, hreport⟩ := List.mem_filterMap.mp hmem
    obtain ⟨-, -, function, argument, heq⟩ := failure?_eq_some hreport
    cases heq

/-- In `(fn(z) z, z) let z = 1 z` the second of the three uses is the free one: the first is of a
parameter, and the last comes after a declaration. -/
theorem check_unbound_located_shadowed :
    ∃ c events, check true "(fn(z) z, z) let z = 1 z" = (.ok c, events) ∧
      ⟨.unbound "z", ⟨10, 11⟩⟩ ∈ c.problems ∧
      ∃ tree path, parse "(fn(z) z, z) let z = 1 z" = .ok tree ∧
        tree.FreeUse "z" path ⟨10, 11⟩ := by
  let tree : Tree Span := .block ⟨0, 24⟩ [
    .tuple ⟨0, 12⟩ [.fn ⟨1, 8⟩ ["z"] (.var ⟨7, 8⟩ "z"), .var ⟨10, 11⟩ "z"],
    .decl ⟨13, 22⟩ "z" (.int ⟨21, 22⟩ 1), .var ⟨23, 24⟩ "z"]
  have hparse : parse "(fn(z) z, z) let z = 1 z" = .ok tree := by cbv
  have hproblem : ((checkTree true tree {}).1.toOption.map fun c =>
      decide (⟨.unbound "z", ⟨10, 11⟩⟩ ∈ c.problems)) = some true := by decide +kernel
  clear_value tree
  obtain ⟨c, hc, hproblem⟩ := Option.map_eq_some_iff.mp hproblem
  have hcheck := check_of_parse hparse hc
  obtain ⟨tree', hparse', -, hlocated⟩ := check_unbound_located hcheck
  obtain ⟨-, -, path, hpath⟩ := hlocated "z" ⟨10, 11⟩ (of_decide_eq_true hproblem)
  exact ⟨c, _, hcheck, of_decide_eq_true hproblem, tree', path, hparse', hpath⟩

end LetTyping
