import Mathlib
import LetTyping.Proofs.Agreement

/-!
# The order of declarations

Declarations that follow each other in a block may change places, if they declare different names.
A declaration resolves no names: its value keeps its free names until the declared name is used, so
it makes no difference whether what they refer to is declared before or after.

The order shows in two ways only.  Variables are allocated in another order, and the declared names
stand in another order in the table of the block.

## Main definitions

* `Declaration` — a declaration as it stands in a program.
* `Declaration.Enters` — what the block holds after a declaration.

## Main results

* `absorb_declTyping` — a declaration adds its name to the table and does nothing else.
* `StatementsAgree.swap` — two declarations in a row may change places.
* `infer_perm_declarations` — **the order of declarations is irrelevant.**
-/

namespace LetTyping

variable {K : Nat → Prop} {f : Nat → Nat} {st st' st₁ : State} {V W : Typing}

/-! ### Declarations as statements -/

/-- A declaration has the variables of its value. -/
theorem freeVars_declTyping (name : String) (V : Typing) :
    (declTyping name V).freeVars = V.freeVars := by
  have htypes : (declTyping name V).types = .unit :: V.types := by
    simp only [declTyping, Typing.types, Typing.definedTypes_eq_flatMap, List.flatMap_cons,
      List.flatMap_nil, List.append_nil]
    rfl
  rw [Typing.freeVars, htypes, List.flatMap_cons]
  rfl

/-- An instance of a declaration declares an instance of its value. -/
theorem instantiate_declTyping (h : Region K st) (hV : V.All (Owns Anywhere st)) (name : String) :
    instantiate (declTyping name V) st =
      (declTyping name (instantiate V st).1, (instantiate V st).2) := by
  obtain ⟨-, -, -, heq⟩ := instantiate_evolves h hV
  have hdecl : (declTyping name V).All (Owns Anywhere st) :=
    Typing.all_iff.mpr ⟨.con (by simp), Uses.all_nil, by simpa [declTyping] using hV⟩
  obtain ⟨-, -, -, heq'⟩ := instantiate_evolves h hdecl
  rw [heq, heq', apply_declTyping, freeVars_declTyping, Typing.renumber, freeVars_declTyping]
  rfl

/-- **A declaration adds its name to the table of the block and does nothing else.** -/
theorem absorb_declTyping (h : Region K st) (hV : V.All (Owns Anywhere st)) (name : String)
    (sofar : Typing) (span : Span) :
    absorb sofar span (declTyping name V) st =
      (.ok ⟨.unit, sofar.context, Table.insert sofar.defined name (instantiate V st).1⟩,
        (instantiate V st).2) := by
  have hnone : ∀ defined : Defined, collected (resolveNames defined span defined.length []
      (declTyping name (instantiate V st).1).context sofar.context (instantiate V st).2) =
        (.ok sofar.context, (instantiate V st).2) := fun defined => by
    rw [declTyping, resolveNames_nil]
    rfl
  rw [absorb_collected, instantiate_declTyping h hV, hnone]
  rfl

/-- A declaration as it stands in a program. -/
structure Declaration where
  /-- Where the declaration stands. -/
  span : Span
  /-- The declared name. -/
  name : String
  /-- What the name stands for. -/
  value : Tree Span

namespace Declaration

variable {d e : Declaration}

/-- The declaration as a statement. -/
def node (d : Declaration) : Tree Span := .decl d.span d.name d.value

/-- Inference from the initial state finds a typing for the value. -/
def HasTyping (d : Declaration) : Prop := (infer d.value.unmarked {}).1.1.isOk

instance (d : Declaration) : Decidable d.HasTyping :=
  inferInstanceAs (Decidable ((infer d.value.unmarked {}).1.1.isOk = true))

/-- The declaration takes the block from one state to another, and `W` is what the name stands for
from then on. -/
structure Enters (d : Declaration) (st : State) (W : Typing) (st₁ : State) : Prop where
  run : ∀ sofar ns, blockResult sofar (d.node :: ns) st =
    blockResult ⟨.unit, sofar.context, Table.insert sofar.defined d.name W⟩ ns st₁
  evolves : Evolves (st.count ≤ ·) st st₁
  fresh : ∀ n ∈ W.ids, st.count ≤ n ∧ n < st₁.count ∧ st₁.subst[n]? = none

/-- What is declared stays as it is when the block goes on. -/
theorem Enters.fresh_after (h : d.Enters st W st₁) (hev : Evolves (st₁.count ≤ ·) st₁ st') {n : Nat}
    (hn : n ∈ W.ids) : n < st'.count ∧ st'.subst[n]? = none := by
  obtain ⟨-, hlt, hnone⟩ := h.fresh n hn
  exact ⟨lt_of_lt_of_le hlt hev.count_le, (hev.kept n (Nat.not_le.mpr hlt)).trans hnone⟩

theorem enters_of_result (h : Region Anywhere st)
    (hvalue : d.value.result (st.logged (.statement d.node.kind d.span.start)) = (.ok V, st₁)) :
    d.Enters st (instantiate V st₁).1 (instantiate V st₁).2 := by
  have h₀ := State.logged_evolves h.above (.statement d.node.kind d.span.start)
  obtain ⟨hev, hV⟩ := d.value.result_evolves h₀.region.all
  rw [hvalue] at hev hV
  have hV₁ : V.All (Owns Anywhere st₁) := (hV V rfl).1.imp fun _ ht => ht.anywhere
  -- the instance is over new variables, so what was there is not touched
  obtain ⟨hev₁, -, hnew, heq⟩ := instantiate_evolves hev.region.all.above hV₁
  have hev₀₁ := h₀.step hev
  refine ⟨fun sofar ns => ?_, hev₀₁.step hev₁,
    Typing.forall_mem_ids.mpr (hnew.imp fun t ht w hw => ?_)⟩
  -- the declaration is inferred like its value, and taken in with no names to resolve
  · have hnode : d.node.result (st.logged (.statement d.node.kind d.span.start)) =
        (.ok (declTyping d.name V), st₁) := by
      rw [node, Tree.result_decl]
      exact Infer.bind_of_ok hvalue _
    rw [blockResult_cons, Infer.lift_bind_apply, record_eq]
    refine (Infer.bind_of_ok hnode _).trans (Infer.bind_of_ok ?_ _)
    exact absorb_declTyping hev.region hV₁ d.name sofar d.span
  -- the new variables are unbound, since making an instance binds none
  · have hsubst : (instantiate V st₁).2.subst = st₁.subst := by rw [heq]
    refine ⟨le_trans hev₀₁.count_le (ht w hw).1, (ht w hw).2, ?_⟩
    rw [hsubst]
    exact hev.region.unbound (ht w hw).1

/-- A declaration whose value has a typing enters every block, with the same typing up to
renaming. -/
theorem HasTyping.enters (hd : d.HasTyping) (h : Region Anywhere st) :
    ∃ W st₁, d.Enters st W st₁ ∧ ∀ {st' : State}, Region Anywhere st' →
      ∃ W' st₁', d.Enters st' W' st₁' ∧ Similar W W' := by
  have hagree : Agree d.value d.value := .refl d.value
  -- The value has a typing from the initial state, so it has one from every state.
  have hok : ∀ {st : State}, Region Anywhere st → ∃ V st₁, d.value.result st = (.ok V, st₁) := by
    intro st h
    have hsame := hagree.result region_start h
    have hstart : (d.value.result {}).1.isOk = true := hd
    generalize d.value.result {} = x at hsame hstart
    generalize d.value.result st = y at hsame ⊢
    cases hsame with
    | ok _ => exact ⟨_, _, rfl⟩
    | error => cases hstart
  have h₀ := (State.logged_evolves h.above (.statement d.node.kind d.span.start)).region.all
  obtain ⟨V, st₁, hV⟩ := hok h₀
  refine ⟨_, _, enters_of_result h hV, fun {st'} h' => ?_⟩
  have h₀' := (State.logged_evolves h'.above (.statement d.node.kind d.span.start)).region.all
  obtain ⟨V', st₁', hV'⟩ := hok h₀'
  refine ⟨_, _, enters_of_result h' hV', ?_⟩
  have hmeets := hagree.meets h₀ h₀'
  rw [hV, hV'] at hmeets
  cases hmeets with
  | ok hev hev' hown hown' huniform hsim =>
    exact Similar.instantiate hsim huniform hev.region hev'.region
      (hown.imp fun _ ht => ht.anywhere) (hown'.imp fun _ ht => ht.anywhere)

end Declaration

/-! ### Declarations in a row -/

/-- **Two declarations in a row may change places** if they declare different names. -/
theorem StatementsAgree.swap {d e : Declaration} (hne : d.name ≠ e.name) (hd : d.HasTyping)
    (he : e.HasTyping) (ns : List (Tree Span)) :
    StatementsAgree (d.node :: e.node :: ns) (e.node :: d.node :: ns) where
  result := fun {K f st st' sofar sofar'} hlock hsofar => by
    obtain ⟨W, st₁, hW, hagainW⟩ := hd.enters hlock.left
    obtain ⟨X, st₂, hX, hagainX⟩ := he.enters hW.evolves.region.all
    obtain ⟨X', st₁', hX', hsimX⟩ := hagainX hlock.right
    obtain ⟨W', st₂', hW', hsimW⟩ := hagainW hX'.evolves.region.all
    rw [hW.run, hX.run, hX'.run, hW'.run]
    have hlock₂ := hlock.evolve (hW.evolves.step hX.evolves) (hX'.evolves.step hW'.evolves)
    have hle := hW.evolves.count_le
    have hle' := hX'.evolves.count_le
    obtain ⟨K₁, f₁, hext₁, hlock₃, hWW', hK₁⟩ := hlock₂.adopt_typing hsimW
      (fun n hn => ⟨fun hK => by
        have := hlock.allocated n hK
        have := hW.fresh n hn
        omega, hW.fresh_after hX.evolves hn⟩)
      (fun n hn => ⟨fun m hm => by
        have := hlock.allocated m hm
        have := hW'.fresh n hn
        omega, (hW'.fresh n hn).2⟩)
    -- The other name stands for something between the old variables and those of the first one, on
    -- the right, and for something behind them on the left.
    obtain ⟨K₂, f₂, hext₂, hlock₄, hXX', -⟩ := hlock₃.adopt_typing hsimX
      (fun n hn => ⟨fun hK => by
        have := hX.fresh n hn
        rcases hK₁ n hK with hK | ⟨hmem, -⟩
        · have := hlock.allocated n hK
          omega
        · have := hW.fresh n hmem
          omega, (hX.fresh n hn).2⟩)
      (fun n hn => ⟨fun m hm => by
        have := hX'.fresh n hn
        by_cases hK : K m
        · have := hlock.allocated m hK
          rw [(hext₁ m hK).2]
          omega
        · have := hW'.fresh (f₁ m) ((hK₁ m hm).resolve_left hK).2
          omega, hX'.fresh_after hW'.evolves hn⟩)
    refine ((refl ns).result hlock₄ ?_).extend (hext₁.trans hext₂)
    obtain ⟨hover, hS⟩ := hsofar.extend (hext₁.trans hext₂)
    obtain ⟨hoverW, hRW⟩ := hWW'.extend hext₂
    obtain ⟨hoverX, hRX⟩ := hXX'
    obtain ⟨-, hcontext, hdefined⟩ := Typing.all_iff.mp hover
    refine ⟨Typing.all_iff.mpr ⟨over_con.mpr (by simp), hcontext, fun e' he' => ?_⟩, ?_⟩
    · rcases Table.mem_insertAll (u := [(d.name, W), (e.name, X)]) he' with he' | he'
      · exact hdefined e' he'
      · rcases List.mem_pair.mp he' with rfl | rfl
        · exact hoverW
        · exact hoverX
    · have hentries : Shuffled [(d.name, W.rename f₂), (e.name, X.rename f₂)]
          [(d.name, W'), (e.name, X')] :=
        .cons hRW.ty hRW.context hRW.defined (.cons hRX.ty hRX.context hRX.defined .nil)
      have hleft : Shuffled (Table.mapValues (Typing.rename f₂)
          (Table.insertAll sofar.defined [(d.name, W), (e.name, X)]))
          (Table.insertAll sofar'.defined [(d.name, W'), (e.name, X')]) := by
        rw [Table.mapValues_insertAll, ← Typing.rename_defined]
        exact hS.defined.insertAll hentries
      rw [Typing.rename_mk]
      exact ⟨rfl, hS.context.trans (Typing.rename_context _ _),
        hleft.trans (.insert_comm hne sofar'.defined W' X')⟩

/-- Declarations in a row that declare different names may stand in any order. -/
theorem Agree.block_perm {ds ds' : List Declaration} (hperm : ds.Perm ds')
    (hnames : (ds.map Declaration.name).Nodup) (hvalues : ∀ d ∈ ds, d.HasTyping) (l : Span)
    (before after : List (Tree Span)) :
    Agree (.block l (before ++ ds.map Declaration.node ++ after))
      (.block l (before ++ ds'.map Declaration.node ++ after)) := by
  induction hperm generalizing before with
  | nil => exact .refl _
  | cons d _ ih =>
    -- the first declaration is the same, so it is counted with the statements before
    rw [List.map_cons, List.nodup_cons] at hnames
    rw [List.forall_mem_cons] at hvalues
    simpa using ih hnames.2 hvalues.2 (before ++ [d.node])
  | swap d e ds =>
    rw [List.forall_mem_cons, List.forall_mem_cons] at hvalues
    -- two neighbours that declare different names change places
    have hne : e.name ≠ d.name := by
      simp only [List.map_cons, List.nodup_cons, List.mem_cons, not_or] at hnames
      exact hnames.1.1
    simpa using Agree.block (.append_left before
      (.swap hne hvalues.1 hvalues.2.1 (ds.map Declaration.node ++ after))) l
  | trans h _ ih ih' =>
    exact (ih hnames hvalues before).trans (ih' ((h.map _).nodup_iff.mp hnames)
      (fun d hd => hvalues d (h.mem_iff.mpr hd)) before)

/-- **The order of declarations is irrelevant.**  Declarations of different names that follow each
other in a block, anywhere in a tree, may change places, if inference finds typings for their
values.  Then inference of the trees ends with the same problem, or it finds typings that have, once
they are resolved, the same type, the same context and the same declared names up to a renaming. -/
theorem infer_perm_declarations {t : Tree Span} {path : List Nat} {l : Span}
    {before after : List (Tree Span)} {ds ds' : List Declaration}
    (hblock : t.get? path = some (.block l (before ++ ds.map Declaration.node ++ after)))
    (hnames : (ds.map Declaration.name).Nodup) (hvalues : ∀ d ∈ ds, d.HasTyping)
    (hperm : ds.Perm ds') :
    let t' := t.set (.block l (before ++ ds'.map Declaration.node ++ after)) path
    let resolved (t : Tree Span) (T : Typing) := T.apply (infer t.unmarked {}).2.subst
    (∃ T T' f, (infer t.unmarked {}).1.1 = .ok T ∧ (infer t'.unmarked {}).1.1 = .ok T' ∧
        Set.InjOn f {n | n ∈ (resolved t T).ids} ∧
        Reordered ((resolved t T).rename f) (resolved t' T')) ∨
      ∃ e, (infer t.unmarked {}).1.1 = .error e ∧ (infer t'.unmarked {}).1.1 = .error e := by
  intro t' resolved
  -- the blocks agree, and so do the trees around them
  have hagree := Agree.set hblock (Agree.block_perm hperm hnames hvalues l before after)
  have hsame : SameOutcome ResolvedSimilar (t.result {}) (t'.result {}) :=
    hagree.result region_start region_start
  rw [Tree.result, Tree.result] at hsame
  simp only [resolved]
  generalize (infer t.unmarked {}).1.1 = r, (infer t.unmarked {}).2 = st at hsame ⊢
  generalize (infer t'.unmarked {}).1.1 = r', (infer t'.unmarked {}).2 = st' at hsame ⊢
  cases hsame with
  | error => exact Or.inr ⟨_, rfl, rfl⟩
  | ok hsim =>
    obtain ⟨f, hf, hR⟩ := hsim
    exact Or.inl ⟨_, _, f, rfl, rfl, hf, hR⟩

/-- Declarations that refer to each other in a function, and ones that refer to each other in a
circle. -/
theorem infer_perm_declarations_mutual :
    let use (name : String) : Tree Span := .var ⟨0, 0⟩ name
    let f : Declaration := ⟨⟨1, 2⟩, "f",
      .fn ⟨0, 0⟩ ["x"] (.apply ⟨0, 0⟩ (use "g") (.tuple ⟨0, 0⟩ [use "x"]))⟩
    let g : Declaration := ⟨⟨3, 4⟩, "g", .fn ⟨0, 0⟩ ["y"] (use "y")⟩
    let h : Declaration := ⟨⟨5, 6⟩, "h", .tuple ⟨0, 0⟩ [use "f", use "g", use "k"]⟩
    let loop : Declaration := ⟨⟨7, 8⟩, "g", .fn ⟨0, 0⟩ [] (use "f")⟩
    let within (ds : List Declaration) : Tree Span :=
      .fn ⟨0, 0⟩ ["z"] (.block ⟨0, 0⟩ (ds.map Declaration.node ++ [use "h"]))
    let resolved (t : Tree Span) (T : Typing) := T.apply (infer t.unmarked {}).2.subst
    (∃ T T' k, (infer (within [f, g, h]).unmarked {}).1.1 = .ok T ∧
        (infer (within [h, f, g]).unmarked {}).1.1 = .ok T' ∧
        Set.InjOn k {n | n ∈ (resolved (within [f, g, h]) T).ids} ∧
        Reordered ((resolved (within [f, g, h]) T).rename k) (resolved (within [h, f, g]) T')) ∧
      ∃ e, (infer (within [f, loop, h]).unmarked {}).1.1 = .error e ∧
        (infer (within [h, f, loop]).unmarked {}).1.1 = .error e := by
  intro use f g h loop within resolved
  have hok : (infer (within [f, g, h]).unmarked {}).1.1.isOk = true := by decide +kernel
  have hfail : (infer (within [f, loop, h]).unmarked {}).1.1.isOk = false := by decide +kernel
  have hget : ∀ ds, (within ds).get? [0] =
      some (.block ⟨0, 0⟩ ([] ++ ds.map Declaration.node ++ [use "h"])) := fun _ => rfl
  have hset : ∀ ds ds', (within ds).set
      (.block ⟨0, 0⟩ ([] ++ ds'.map Declaration.node ++ [use "h"])) [0] = within ds' :=
    fun _ _ => rfl
  have hmutual := infer_perm_declarations (hget [f, g, h]) (by decide +kernel) (by decide +kernel)
    (List.perm_append_comm : ([f, g] ++ [h]).Perm ([h] ++ [f, g]))
  have hcircle := infer_perm_declarations (hget [f, loop, h]) (by decide +kernel)
    (by decide +kernel) (List.perm_append_comm : ([f, loop] ++ [h]).Perm ([h] ++ [f, loop]))
  rw [hset] at hmutual hcircle
  clear_value within
  constructor
  · rcases hmutual with hsame | ⟨e, he, -⟩
    · exact hsame
    · exact absurd (hok.symm.trans (congrArg Except.isOk he)) Bool.noConfusion
  · rcases hcircle with ⟨T, _, _, hT, -⟩ | hsame
    · exact absurd (hfail.symm.trans (congrArg Except.isOk hT)) Bool.noConfusion
    · exact hsame

end LetTyping
