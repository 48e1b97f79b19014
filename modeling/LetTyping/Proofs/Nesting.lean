import Mathlib
import LetTyping.Proofs.Coverage
import LetTyping.Proofs.RoundTrip

/-!
# Spans are well nested

The span of a node starts where one of its tokens starts and stops where one of them stops.  So it
lies between two characters of the source, the spans of the children lie inside it, and they follow
each other as the children do.

A reader is looked at as something that advances through the text: started at a position, it takes
the tokens in front of it and leaves those behind a later position.  What it gives lies between the
two (`Reader.Advances`).  Readers that run one after the other advance one after the other, and this
is all that the proofs about the single readers use.

## Main definitions

* `Runs` — spans follow each other between two positions.
* `Tree.Placed`, `Tree.Nested` — a node, and every node of a tree, is where its tokens are, and the
  value of a declaration starts behind it.
* `Reader.Advances` — what a reader gives lies between the positions where it starts and stops.

## Main results

* `runs_iff` — the spans between two positions, one by one.
* `Reader.expr_advances`, `Reader.program_nested` — expressions and programs are nested.
* `tokenize_laid` — the tokens of a text follow each other.
* `parse_nested` — **the spans of a program are well nested.**
-/

namespace LetTyping

/-! ### Spans one after another -/

/-- The spans follow each other between two positions, and none of them is empty. -/
def Runs : Nat → List Span → Nat → Prop
  | lo, [], hi => lo ≤ hi
  | lo, span :: spans, hi => lo ≤ span.start ∧ span.start < span.stop ∧ Runs span.stop spans hi

theorem runs_iff {lo hi : Nat} {spans : List Span} :
    Runs lo spans hi ↔ lo ≤ hi ∧ spans.Pairwise Span.Before ∧
      ∀ span ∈ spans, lo ≤ span.start ∧ span.start < span.stop ∧ span.stop ≤ hi := by
  induction spans generalizing lo with
  | nil => simp [Runs]
  | cons span spans ih =>
    rw [Runs, ih, List.pairwise_cons, List.forall_mem_cons]
    constructor
    · rintro ⟨hstart, hlt, hstop, hpairs, hall⟩
      refine ⟨by omega, ⟨fun other hother => (hall other hother).1, hpairs⟩,
        ⟨hstart, hlt, hstop⟩, fun other hother => ?_⟩
      obtain ⟨hle, hother⟩ := hall other hother
      exact ⟨by omega, hother⟩
    · rintro ⟨-, ⟨hbefore, hpairs⟩, ⟨hstart, hlt, hstop⟩, hall⟩
      exact ⟨hstart, hlt, hstop, hpairs, fun other hother =>
        ⟨hbefore other hother, (hall other hother).2⟩⟩

namespace Runs

variable {lo lo' mid hi hi' : Nat} {span : Span} {spans spans' : List Span}

theorem le (h : Runs lo spans hi) : lo ≤ hi := (runs_iff.mp h).1

theorem mono (h : Runs lo spans hi) (hlo : lo' ≤ lo) (hhi : hi ≤ hi') : Runs lo' spans hi' := by
  rw [runs_iff] at h ⊢
  refine ⟨by omega, h.2.1, fun span hspan => ?_⟩
  have := h.2.2 span hspan
  omega

theorem append (h : Runs lo spans mid) (h' : Runs mid spans' hi) :
    Runs lo (spans ++ spans') hi := by
  induction spans generalizing lo with
  | nil => exact h'.mono h (Nat.le_refl _)
  | cons span spans ih => exact ⟨h.1, h.2.1, ih h.2.2⟩

/-- Without the last span. -/
theorem init (h : Runs lo (spans ++ [span]) hi) : Runs lo spans span.start := by
  induction spans generalizing lo with
  | nil => exact h.1
  | cons _ spans ih => exact ⟨h.1, h.2.1, ih h.2.2⟩

/-- Up to the end of the last span. -/
theorem close (h : Runs lo (spans ++ [span]) hi) : Runs lo (spans ++ [span]) span.stop := by
  have hlast := (runs_iff.mp h).2.2 span (by simp)
  exact h.init.append ⟨Nat.le_refl _, hlast.2.1, Nat.le_refl _⟩

end Runs

/-! ### Nodes and their tokens -/

/-- The token of a tree that is one. -/
def Tree.token? {α : Type} : Tree α → Option Token
  | int _ value => some (.int value)
  | var _ name => some (.ident name)
  | _ => none

/-- The name and the label of a declaration. -/
def Tree.let? {α : Type} : Tree α → Option (String × α)
  | decl label name _ => some (name, label)
  | _ => none

/-- The position is where one of the tokens starts. -/
def TokenStarts (tokens : List (Located Token)) (pos : Nat) : Prop :=
  ∃ t ∈ tokens, t.span.start = pos

/-- The position is where one of the tokens stops. -/
def TokenStops (tokens : List (Located Token)) (pos : Nat) : Prop :=
  ∃ t ∈ tokens, t.span.stop = pos

/-- The node is where its tokens are, and the value of a declaration starts behind it. -/
structure Tree.Placed (tokens : List (Located Token)) (n : Tree Span) : Prop where
  proper : n.label.start < n.label.stop
  starts : TokenStarts tokens n.label.start
  ends : TokenStops tokens n.label.stop
  children : Runs n.label.start (n.children.map Tree.label) n.label.stop
  token : ∀ token, n.token? = some token → ⟨token, n.label⟩ ∈ tokens
  behind : n.let?.isSome → ∀ c ∈ n.children, n.label.start < c.label.start

/-- Every node of the tree is where its tokens are. -/
def Tree.Nested (tokens : List (Located Token)) (t : Tree Span) : Prop :=
  ∀ n ∈ t.subtrees, n.Placed tokens

theorem Tree.nested_iff {tokens : List (Located Token)} {t : Tree Span} :
    t.Nested tokens ↔ t.Placed tokens ∧ ∀ c ∈ t.children, c.Nested tokens := forall_subtrees_iff

/-- Tokens of a text that follow each other behind a position. -/
structure Laid (tokens : List (Located Token)) (lo : Nat) (s : List (Located Token)) : Prop where
  runs : ∃ hi, Runs lo (s.map Located.span) hi
  sub : s ⊆ tokens

namespace Laid

variable {tokens s : List (Located Token)} {t : Located Token} {lo : Nat}

theorem mem (h : Laid tokens lo (t :: s)) : t ∈ tokens := h.sub List.mem_cons_self

theorem head (h : Laid tokens lo (t :: s)) : Runs lo [t.span] t.span.stop := by
  obtain ⟨hi, hruns⟩ := h.runs
  exact ⟨hruns.1, hruns.2.1, Nat.le_refl _⟩

theorem tail (h : Laid tokens lo (t :: s)) : Laid tokens t.span.stop s where
  runs := h.runs.imp fun _ hruns => hruns.2.2
  sub := List.subset_of_cons_subset h.sub

/-- A token that is a tree. -/
theorem single {n : Tree Span} (h : Laid tokens lo (t :: s)) (htoken : n.token? = some t.val)
    (hlabel : n.label = t.span) : n.Nested tokens := by
  -- numbers and names have nothing below them
  have hchildren : n.children = [] := by
    cases n with
    | int | var => rfl
    | _ => cases htoken
  obtain ⟨-, hproper, -⟩ := h.head
  refine Tree.nested_iff.mpr ⟨⟨?_, ?_, ?_, ?_, fun token heq => ?_, by simp [hchildren]⟩,
    by simp [hchildren]⟩ <;> rw [hlabel]
  · exact hproper
  · exact ⟨t, h.mem, rfl⟩
  · exact ⟨t, h.mem, rfl⟩
  · rw [hchildren]
    exact Nat.le_of_lt hproper
  · cases htoken.symm.trans heq
    exact h.mem

/-- The tokens follow each other behind where the first of them starts. -/
theorem up (h : Laid tokens lo (t :: s)) : Laid tokens t.span.start (t :: s) where
  runs := h.runs.imp fun _ hruns => ⟨Nat.le_refl _, hruns.2⟩
  sub := h.sub

end Laid

namespace Reader

variable {α β : Type} {tokens : List (Located Token)} {stop : Span} {lo first bound : Nat}

/-! ### Advancing through a text -/

/-- Started at a position, the reader leaves tokens behind a later position.  The positions and what
it gives are related. -/
def Advances (tokens : List (Located Token)) (lo : Nat) (x : Reader α)
    (Q : α → Nat → Prop) : Prop :=
  ∀ s a s', Laid tokens lo s → x s = .ok (a, s') → ∃ mid, Laid tokens mid s' ∧ Q a mid

namespace Advances

variable {P : α → Nat → Prop} {Q : β → Nat → Prop} {token : Token}

theorem bind {x : Reader α} {f : α → Reader β} (hx : Advances tokens lo x P)
    (hf : ∀ a mid, P a mid → Advances tokens mid (f a) Q) : Advances tokens lo (x >>= f) Q := by
  intro s b s' hs h
  obtain ⟨a, s₁, ha, hb⟩ := bind_ok h
  obtain ⟨mid, hmid, hP⟩ := hx s a s₁ hs ha
  exact hf a mid hP s₁ b s' hmid hb

theorem pure {b : β} (h : Q b lo) : Advances tokens lo (pure b) Q := by
  intro s b' s' hs hb
  obtain ⟨rfl, rfl⟩ := pure_ok hb
  exact ⟨lo, hs, h⟩

theorem unexpected {expected : String} : Advances tokens lo (unexpected stop expected) Q :=
  fun _ _ _ _ h => absurd h unexpected_ne_ok

/-- A token that may be there. -/
theorem accept {found : Span → Reader β} {other : Reader β}
    (hfound : ∀ span, ⟨token, span⟩ ∈ tokens → Runs lo [span] span.stop →
      Advances tokens span.stop (found span) Q)
    (hother : Advances tokens lo other Q) :
    Advances tokens lo (do match ← accept token with
      | some span => found span
      | none => other) Q := by
  intro s b s' hs h
  obtain ⟨_, s₁, haccept, hcont⟩ := bind_ok h
  rcases accept_cases haccept with ⟨span, rfl, rfl⟩ | ⟨rfl, rfl, -⟩
  · exact hfound span hs.mem hs.head s₁ b s' hs.tail hcont
  · exact hother s₁ b s' hs hcont

/-- A token that must be there. -/
theorem expect {f : Span → Reader β}
    (hf : ∀ span, ⟨token, span⟩ ∈ tokens → Runs lo [span] span.stop →
      Advances tokens span.stop (f span) Q) :
    Advances tokens lo (expect stop token >>= f) Q := by
  refine bind (P := fun span mid => ⟨token, span⟩ ∈ tokens ∧ Runs lo [span] span.stop ∧
    mid = span.stop) (accept (fun span hmem hspan => pure ⟨hmem, hspan, rfl⟩) unexpected) ?_
  rintro span _ ⟨hmem, hspan, rfl⟩
  exact hf span hmem hspan

theorem ident {f : String → Reader β} (hf : ∀ name mid, lo ≤ mid → Advances tokens mid (f name) Q) :
    Advances tokens lo (ident stop >>= f) Q := by
  intro s b s' hs h
  obtain ⟨name, s₁, hname, h⟩ := bind_ok h
  unfold Reader.ident at hname
  split at hname
  · cases hname
    exact hf _ _ hs.head.le _ _ _ hs.tail h
  · exact absurd hname unexpected_ne_ok

end Advances

theorem params_advances : Advances tokens lo (params stop bound) fun _ mid => lo ≤ mid := by
  induction bound generalizing lo with
  | zero => exact .unexpected
  | succ bound ih =>
    refine .ident fun name mid hmid => .accept (fun span _ hspan => ?_) ?_
    · exact .bind ih fun names mid' hmid' =>
        .pure (Nat.le_trans hmid (Nat.le_trans hspan.le hmid'))
    · exact .expect fun span _ hspan => .pure (Nat.le_trans hmid hspan.le)

/-- The tree is nested between two positions. -/
def Lies (tokens : List (Located Token)) (lo : Nat) (t : Tree Span) (hi : Nat) : Prop :=
  Runs lo [t.label] hi ∧ t.Nested tokens

/-- The trees are nested between two positions, one after another. -/
def LieAll (tokens : List (Located Token)) (lo : Nat) (ts : List (Tree Span)) (hi : Nat) : Prop :=
  Runs lo (ts.map Tree.label) hi ∧ ∀ t ∈ ts, t.Nested tokens

theorem LieAll.nil (tokens : List (Located Token)) (lo : Nat) : LieAll tokens lo [] lo :=
  ⟨Nat.le_refl _, by simp⟩

theorem Lies.cons {t : Tree Span} {ts : List (Tree Span)} {mid hi : Nat}
    (h : Lies tokens lo t mid) (hts : LieAll tokens mid ts hi) : LieAll tokens lo (t :: ts) hi :=
  ⟨h.1.append hts.1, List.forall_mem_cons.mpr ⟨h.2, hts.2⟩⟩

theorem Lies.mono {t : Tree Span} {lo' hi hi' : Nat} (h : Lies tokens lo t hi)
    (hlo : lo' ≤ lo) (hhi : hi ≤ hi') : Lies tokens lo' t hi' :=
  ⟨h.1.mono hlo hhi, h.2⟩

theorem LieAll.mono {ts : List (Tree Span)} {lo' hi hi' : Nat} (h : LieAll tokens lo ts hi)
    (hlo : lo' ≤ lo) (hhi : hi ≤ hi') : LieAll tokens lo' ts hi' :=
  ⟨h.1.mono hlo hhi, h.2⟩

/-- A node that starts and ends with tokens and has trees that lie between them below it. -/
theorem LieAll.node {t : Tree Span} (h : LieAll tokens t.label.start t.children t.label.stop)
    (hproper : t.label.start < t.label.stop) (hstart : TokenStarts tokens t.label.start)
    (hend : TokenStops tokens t.label.stop) (htoken : t.token? = none)
    (hbehind : t.let?.isSome → ∀ c ∈ t.children, t.label.start < c.label.start) :
    t.Nested tokens :=
  Tree.nested_iff.mpr
    ⟨⟨hproper, hstart, hend, h.1, fun token heq => by simp [htoken] at heq, hbehind⟩, h.2⟩

/-- A call goes from its function to the end of its argument. -/
theorem Lies.called {fn arg : Tree Span} {hi : Nat} (hfn : Lies tokens first fn lo)
    (hfirst : TokenStarts tokens first) (harg : Lies tokens lo arg hi) (hhi : arg.label.stop = hi) :
    Lies tokens first (.apply ⟨first, hi⟩ fn arg) hi := by
  obtain ⟨hlo, hproper, -⟩ := harg.1
  have hlt : first < hi := by
    have := hfn.1.le
    omega
  have hends : TokenStops tokens hi := hhi ▸ (Tree.nested_iff.mp harg.2).1.ends
  exact ⟨⟨Nat.le_refl _, hlt, Nat.le_refl _⟩,
    LieAll.node (hfn.cons (harg.cons (.nil _ _))) hlt hfirst hends rfl (by simp [Tree.let?])⟩

/-- A node that goes on to a token behind the trees below it. -/
theorem LieAll.enclosed {t : Tree Span} {token : Token} {closing : Span} {last : Nat}
    (h : LieAll tokens lo t.children last) (hfirst : TokenStarts tokens first) (hlo : first < lo)
    (hclosing : Runs last [closing] closing.stop) (hmem : ⟨token, closing⟩ ∈ tokens)
    (hlabel : t.label = ⟨first, closing.stop⟩) (htoken : t.token? = none) :
    Lies tokens first t closing.stop := by
  have hle := h.1.le
  have hle' := hclosing.le
  have hlt : first < closing.stop := by omega
  refine ⟨by rw [hlabel]; exact ⟨Nat.le_refl _, hlt, Nat.le_refl _⟩,
    LieAll.node ?_ ?_ ?_ ?_ htoken ?_⟩ <;> rw [hlabel]
  · exact h.mono (Nat.le_of_lt hlo) hle'
  · exact hlt
  · exact hfirst
  · exact ⟨_, hmem, rfl⟩
  · intro _ c hc
    exact Nat.lt_of_lt_of_le hlo ((runs_iff.mp h.1).2.2 _ (List.mem_map_of_mem hc)).1

/-- A node that stops with the one tree below it. -/
theorem Lies.headed {t c : Tree Span} {mid : Nat} (h : Lies tokens lo c mid)
    (hfirst : TokenStarts tokens first) (hlo : first < lo) (hchildren : t.children = [c])
    (hlabel : t.label = ⟨first, c.label.stop⟩) (htoken : t.token? = none) :
    Lies tokens first t mid := by
  obtain ⟨⟨hstart, hproper, hstop⟩, hnested⟩ := h
  have hle : first ≤ c.label.start := by omega
  have hlt : first < c.label.stop := by omega
  have hplaced := (Tree.nested_iff.mp hnested).1
  refine ⟨by rw [hlabel]; exact ⟨Nat.le_refl _, hlt, hstop⟩,
    LieAll.node ?_ ?_ ?_ ?_ htoken ?_⟩ <;> rw [hlabel]
  · rw [hchildren]
    exact ⟨⟨hle, hproper, Nat.le_refl _⟩, by simpa using hnested⟩
  · exact hlt
  · exact hfirst
  · exact hplaced.ends
  · rw [hchildren]
    exact fun _ => List.forall_mem_singleton.mpr (Nat.lt_of_lt_of_le hlo hstart)

/-- The form is read behind the token that opens it. -/
def Opens (tokens : List (Located Token)) (form : Nat → Reader (Tree Span)) : Prop :=
  ∀ first lo, TokenStarts tokens first → first < lo →
    Advances tokens lo (form first) (Lies tokens first)

theorem Opens.reads {form : Nat → Reader (Tree Span)} (hform : Opens tokens form)
    {opening : Located Token} {rest s s' : List (Located Token)} {t : Tree Span} {mid : Nat}
    (hopening : Laid tokens lo (opening :: rest)) (hs : Laid tokens mid s)
    (hmid : opening.span.stop ≤ mid) (h : form opening.span.start s = .ok (t, s')) :
    ∃ hi, Laid tokens hi s' ∧ Lies tokens lo t hi := by
  obtain ⟨hle, hproper, -⟩ := hopening.head
  obtain ⟨hi, hs', hlies⟩ := hform opening.span.start mid ⟨opening, hopening.mem, rfl⟩
    (Nat.lt_of_lt_of_le hproper hmid) s t s' hs h
  exact ⟨hi, hs', hlies.mono hle (Nat.le_refl _)⟩

/-! ### The readers -/

section Forms

variable {inner : Reader (Tree Span)}
variable (hinner : ∀ lo, Advances tokens lo inner (Lies tokens lo))

include hinner

theorem list_advances {close : Token} :
    Advances tokens lo (list stop inner close bound) fun r mid =>
      ∃ last, LieAll tokens lo r.1 last ∧ Runs last [r.2] mid ∧ ⟨close, r.2⟩ ∈ tokens ∧
        mid = r.2.stop := by
  induction bound generalizing lo with
  | zero => exact .unexpected
  | succ bound ih =>
    refine .accept (fun span hmem hspan => .pure ⟨lo, .nil _ _, hspan, hmem, rfl⟩) ?_
    refine .bind (hinner lo) fun head mid hhead => .accept (fun comma _ hcomma => ?_) ?_
    · refine .bind ih fun r mid' ⟨last, htail, hrest⟩ => .pure ⟨last, ?_, hrest⟩
      exact hhead.cons (htail.mono hcomma.le (Nat.le_refl _))
    · exact .expect fun span hmem hspan =>
        .pure ⟨mid, hhead.cons (.nil _ _), hspan, hmem, rfl⟩

theorem parenthesized_opens : Opens tokens (parenthesized stop inner bound) := by
  intro first lo hfirst hlo
  refine .accept (fun span hmem hspan => ?_) (.bind (hinner lo) fun head mid hhead =>
    .accept (fun span _ hspan => ?_) (.expect fun comma _ hcomma => ?_))
  · exact .pure ((LieAll.nil tokens lo).enclosed hfirst hlo hspan hmem rfl rfl)
  · exact .pure (hhead.mono (Nat.le_of_lt hlo) hspan.le)
  · refine .bind (list_advances hinner) ?_
    rintro ⟨tail, closing⟩ _ ⟨last, htail, hclosing, hmem, rfl⟩
    have hall := hhead.cons (htail.mono hcomma.le (Nat.le_refl _))
    exact .pure (hall.enclosed hfirst hlo hclosing hmem rfl rfl)

theorem array_opens : Opens tokens (array stop inner bound) := by
  intro first lo hfirst hlo
  refine .bind (list_advances hinner) ?_
  rintro ⟨es, closing⟩ _ ⟨last, hes, hclosing, hmem, rfl⟩
  exact .pure (hes.enclosed hfirst hlo hclosing hmem rfl rfl)

theorem function_opens : Opens tokens (function stop inner bound) := by
  intro first lo hfirst hlo
  have hbody : ∀ names mid, lo ≤ mid → Advances tokens mid (do
      let body ← inner
      return Tree.fn ⟨first, body.label.stop⟩ names body) (Lies tokens first) :=
    fun names mid hmid => .bind (hinner mid) fun body _ hbody => .pure
      (hbody.headed hfirst (Nat.lt_of_lt_of_le hlo hmid) rfl rfl rfl)
  refine .expect fun opening _ hopening => .accept (fun span _ hspan => ?_) ?_
  · exact hbody [] _ (Nat.le_trans hopening.le hspan.le)
  · exact .bind params_advances fun names mid hmid =>
      hbody names mid (Nat.le_trans hopening.le hmid)

theorem declaration_opens : Opens tokens (declaration stop inner) := by
  intro first lo hfirst hlo
  refine .ident fun name mid hmid => .expect fun equals _ hequals => .bind (hinner _)
    fun value _ hvalue => .pure (hvalue.headed hfirst ?_ rfl rfl rfl)
  have := hequals.le
  omega

theorem returned_opens : Opens tokens (returned inner) := fun _ lo hfirst hlo =>
  .bind (hinner lo) fun _ _ hvalue => .pure (hvalue.headed hfirst hlo rfl rfl rfl)

theorem assigned_opens (name : String) : Opens tokens (assigned inner · name) :=
  fun _ lo hfirst hlo =>
    .bind (hinner lo) fun _ _ hvalue => .pure (hvalue.headed hfirst hlo rfl rfl rfl)

theorem bareStatement_advances :
    Advances tokens lo (bareStatement stop inner) (Lies tokens lo) := by
  intro s t s' hs h
  unfold bareStatement at h
  split at h
  · exact (declaration_opens hinner).reads hs hs.tail (Nat.le_refl _) h
  · exact (returned_opens hinner).reads hs hs.tail (Nat.le_refl _) h
  · exact (assigned_opens hinner _).reads hs hs.tail.tail hs.tail.head.le h
  · exact hinner lo _ _ _ hs h

theorem statement_advances : Advances tokens lo (statement stop inner) (Lies tokens lo) := by
  refine .bind (bareStatement_advances hinner) fun stmt mid hstmt s t s' hs h => ?_
  obtain ⟨_, s₁, haccept, h⟩ := bind_ok h
  obtain ⟨rfl, rfl⟩ := pure_ok h
  rcases accept_cases haccept with ⟨semicolon, -, rfl⟩ | ⟨-, rfl, -⟩
  · exact ⟨_, hs.tail, hstmt.mono (Nat.le_refl _) hs.head.le⟩
  · exact ⟨mid, hs, hstmt⟩

theorem statements_advances {inBlock : Bool} :
    Advances tokens lo (statements stop inner inBlock bound) (LieAll tokens lo) := by
  induction bound generalizing lo with
  | zero => exact .unexpected
  | succ bound ih =>
    intro s ss s' hs h
    unfold statements at h
    obtain ⟨_, _, hget, h⟩ := bind_ok h
    cases hget
    split at h
    · obtain ⟨rfl, rfl⟩ := pure_ok h
      exact ⟨lo, hs, .nil _ _⟩
    -- there is a statement to be read, and the others lie behind it
    · have hrest : Advances tokens lo (do
          let head ← statement stop inner
          let tail ← statements stop inner inBlock bound
          return head :: tail) (LieAll tokens lo) :=
        .bind (statement_advances hinner) fun head mid hhead =>
          .bind ih fun tail hi htail => .pure (hhead.cons htail)
      exact hrest s ss s' hs h

theorem block_opens : Opens tokens (block stop inner bound) := by
  intro first lo hfirst hlo
  exact .bind (statements_advances hinner) fun ss mid hss =>
    .expect fun closing hmem hclosing => .pure (hss.enclosed hfirst hlo hclosing hmem rfl rfl)

theorem primary_advances : Advances tokens lo (primary stop inner bound) (Lies tokens lo) := by
  intro s t s' hs h
  unfold primary at h
  split at h
  · cases h
    exact ⟨_, hs.tail, hs.head, hs.single rfl rfl⟩
  · cases h
    exact ⟨_, hs.tail, hs.head, hs.single rfl rfl⟩
  · exact (parenthesized_opens hinner).reads hs hs.tail (Nat.le_refl _) h
  · exact (array_opens hinner).reads hs hs.tail (Nat.le_refl _) h
  · exact (function_opens hinner).reads hs hs.tail (Nat.le_refl _) h
  · exact (block_opens hinner).reads hs hs.tail (Nat.le_refl _) h
  · exact absurd h unexpected_ne_ok

theorem calls_advances {head : Tree Span} (hfirst : TokenStarts tokens first)
    (hhead : Lies tokens first head lo) :
    Advances tokens lo (calls stop inner first head bound) (Lies tokens first) := by
  induction bound generalizing lo head with
  | zero => exact .unexpected
  | succ bound ih =>
    intro s t s' hs h
    unfold calls at h
    obtain ⟨_, s₁, haccept, hcont⟩ := bind_ok h
    rcases accept_cases haccept with ⟨opening, rfl, rfl⟩ | ⟨rfl, rfl, -⟩
    · obtain ⟨⟨args, closing⟩, s₂, hargs, hcont⟩ := bind_ok hcont
      obtain ⟨_, hs₂, last, hlist, hclosing, hmem, rfl⟩ :=
        list_advances hinner _ _ _ hs.tail hargs
      -- the arguments are a tuple from the opening parenthesis to the closing one
      have harg : Lies tokens opening.start (.tuple ⟨opening.start, closing.stop⟩ args)
          closing.stop :=
        hlist.enclosed ⟨_, hs.mem, rfl⟩ hs.head.2.1 hclosing hmem rfl rfl
      exact ih (hhead.called hfirst (harg.mono hs.head.1 (Nat.le_refl _)) rfl) _ _ _ hs₂ hcont
    · obtain ⟨rfl, rfl⟩ := pure_ok hcont
      exact ⟨lo, hs, hhead⟩

end Forms

theorem expr_advances : ∀ lo, Advances tokens lo (expr stop bound) (Lies tokens lo) := by
  induction bound with
  | zero => exact fun lo => .unexpected
  | succ bound ih =>
    intro lo s t s' hs h
    unfold expr at h
    obtain ⟨first, s₁, hstart, h⟩ := bind_ok h
    cases hstart
    obtain ⟨head, s₂, hhead, h⟩ := bind_ok h
    cases s with
    | nil => cases hhead
    | cons token s =>
      -- the expression starts with the next token
      obtain ⟨mid, hs₂, hlies⟩ := primary_advances ih _ _ _ hs.up hhead
      obtain ⟨hi, hs', hlies'⟩ := calls_advances ih ⟨token, hs.mem, rfl⟩ hlies _ _ _ hs₂ h
      exact ⟨hi, hs', hlies'.mono hs.head.1 (Nat.le_refl _)⟩

/-- There are statements exactly if there are tokens. -/
theorem statements_eq_nil_iff {inner : Reader (Tree Span)} {s s' : List (Located Token)}
    {ss : List (Tree Span)} (hs : Unended s)
    (h : statements stop inner false bound s = .ok (ss, s')) : ss = [] ↔ s = [] := by
  cases bound with
  | zero => exact absurd h unexpected_ne_ok
  | succ bound =>
    unfold statements at h
    obtain ⟨_, _, hget, h⟩ := bind_ok h
    cases hget
    cases s with
    | nil =>
      obtain ⟨rfl, -⟩ := pure_ok h
      simp
    | cons token s =>
      have hnext : ¬statementsEnd false (token :: s) = true := by
        simp [statementsEnd, (unended_cons.mp hs).1]
      rw [if_neg hnext] at h
      obtain ⟨head, s₁, -, h⟩ := bind_ok h
      obtain ⟨tail, s₂, -, h⟩ := bind_ok h
      obtain ⟨rfl, -⟩ := pure_ok h
      simp

/-- A program without statements is at the end of the text, and any other one is nested. -/
theorem program_nested {s s' : List (Located Token)} {root : Tree Span} (hs : Laid tokens lo s)
    (hends : Unended s) (h : program stop bound s = .ok (root, s')) :
    root = .block ⟨stop.start, stop.start⟩ [] ∨ (root.children ≠ [] ∧ root.Nested tokens) := by
  unfold program at h
  obtain ⟨first, s₁, hstart, h⟩ := bind_ok h
  cases hstart
  obtain ⟨ss, s₂, hss, h⟩ := bind_ok h
  obtain ⟨rfl, rfl⟩ := pure_ok h
  have hnil := statements_eq_nil_iff hends hss
  cases s with
  | nil =>
    rw [hnil.mpr rfl]
    exact .inl rfl
  | cons token s =>
    -- where there is a token there is a statement, and the last one ends the block
    obtain rfl | ⟨init, last, rfl⟩ := ss.eq_nil_or_concat
    · cases hnil.mp rfl
    rw [List.concat_eq_append] at hss ⊢
    obtain ⟨mid, -, hruns, hnested⟩ := statements_advances expr_advances _ _ _ hs.up hss
    rw [List.map_append, List.map_singleton] at hruns
    have hlast := (runs_iff.mp hruns).2.2 last.label (by simp)
    have hstops := (Tree.nested_iff.mp (hnested last (by simp))).1.ends
    refine .inr ⟨by simp [Tree.children],
      LieAll.node ?_ ?_ ⟨token, hs.mem, rfl⟩ ?_ rfl (by simp [Tree.let?])⟩ <;>
      simp only [Tree.label, List.getLast?_concat, Option.map_some, Option.getD_some]
    · refine ⟨?_, hnested⟩
      simp only [Tree.children, List.map_append, List.map_singleton]
      exact hruns.close
    · exact Nat.lt_of_le_of_lt hlast.1 hlast.2.1
    · exact hstops

end Reader

/-! ### Tokens of a text -/

/-- **The tokens of a text follow each other**, each where it is spelled, up to the end of the
text. -/
theorem tokenize_laid [Alphabet] {source : String} {tokens : List (Located Token)}
    (h : tokenize source = .ok tokens) :
    ∃ body, tokens = body ++ [⟨.eof, ⟨source.utf8ByteSize, source.utf8ByteSize⟩⟩] ∧
      Laid body 0 body ∧ ∀ t ∈ body, ∃ text rest,
        Stands source.toList t.span text rest ∧ t.val.Spelled text rest := by
  obtain ⟨found, haccounts, hlexemes⟩ := locate_pieces_account [] source.toList
  rw [List.nil_append, byteSize_toList] at hlexemes
  -- the tokens are the lexemes, none of which is a fault
  have hmap := (mapM_token?_ok_iff.mp h).symm.trans hlexemes
  obtain ⟨body, last, rfl, hbody, hlast⟩ := List.map_eq_append_iff.mp hmap
  obtain ⟨stop, rfl, hstop⟩ := List.map_eq_singleton_iff.mp hlast
  have hread : ∀ t ∈ body, t.span.start < t.span.stop ∧ ∃ text rest,
      Stands source.toList t.span text rest ∧ t.val.Spelled text rest := fun t ht =>
    haccounts.read ⟨.ok t.val, t.span⟩ (hbody ▸ List.mem_map_of_mem ht)
  obtain ⟨token, span⟩ := stop
  cases hstop
  refine ⟨body, rfl, ⟨⟨source.utf8ByteSize, runs_iff.mpr ⟨Nat.zero_le _, ?_, ?_⟩⟩, fun _ => id⟩,
    fun t ht => (hread t ht).2⟩
  · have hordered := haccounts.ordered
    rw [← hbody, List.pairwise_map] at hordered
    exact List.pairwise_map.mpr hordered
  -- each token stands in the text, so it ends before the text does
  · rw [List.forall_mem_map]
    intro t ht
    obtain ⟨hproper, text, rest, ⟨before, hsource, hspan⟩, -⟩ := hread t ht
    refine ⟨Nat.zero_le _, hproper, ?_⟩
    rw [hspan, ← byteSize_toList, hsource, byteSize_append, byteSize_append]
    exact Nat.le_add_right _ _

/-! ### Programs -/

/-- The position behind some characters of a text lies between two characters. -/
theorem isValid_byteSize {source : String} {before after : List Char}
    (h : source.toList = before ++ after) :
    String.Pos.Raw.IsValid source ⟨byteSize before⟩ := by
  refine String.Pos.Raw.isValid_iff_exists_append.mpr
    ⟨String.ofList before, String.ofList after, ?_, ?_⟩
  · rw [← String.ofList_append, ← h, String.ofList_toList]
  · rw [byteSize_eq]
    rfl

theorem Stands.isValid {source : String} {span : Span} {text rest : List Char}
    (h : Stands source.toList span text rest) :
    String.Pos.Raw.IsValid source ⟨span.start⟩ ∧ String.Pos.Raw.IsValid source ⟨span.stop⟩ := by
  obtain ⟨before, hsource, rfl⟩ := h
  refine ⟨isValid_byteSize (hsource.trans (List.append_assoc _ _ _)), ?_⟩
  rw [← byteSize_append]
  exact isValid_byteSize hsource

/-- A program is read from the tokens of its source, which stand there one behind the other. -/
theorem parse_laid [Alphabet] {source : String} {root : Tree Span} (h : parse source = .ok root) :
    ∃ body s', tokenize source =
        .ok (body ++ [⟨.eof, ⟨source.utf8ByteSize, source.utf8ByteSize⟩⟩]) ∧
      Laid body 0 body ∧ Unended body ∧
      (∀ t ∈ body, ∃ text rest,
        Stands source.toList t.span text rest ∧ t.val.Spelled text rest) ∧
      Reader.program ⟨source.utf8ByteSize, source.utf8ByteSize⟩ (body.length + 2) body =
        .ok (root, s') := by
  obtain ⟨tokens, htokens, hparse⟩ := parse_ok_iff.mp h
  obtain ⟨body, rfl, hlaid, hbody⟩ := tokenize_laid htokens
  -- no text spells the end of the source
  have hends : Unended body := by
    intro token hmem heq
    obtain ⟨text, rest, -, hspelled⟩ := hbody token hmem
    rw [heq] at hspelled
    exact hspelled
  obtain ⟨s', hprogram⟩ := (parseTokens_ok_iff hends rfl).mp hparse
  exact ⟨body, s', htokens, hlaid, hends, hbody, hprogram⟩

/-- **The spans of a program are well nested.**  Every span lies between two characters of the
source, and is empty only if there are no statements.  The spans of the nodes directly below a node
lie inside its span and follow each other.  A number or a name has the span of its token, and is
what is written there. -/
theorem parse_nested [Alphabet] {source : String} {root : Tree Span} (h : parse source = .ok root) :
    ∃ tokens, tokenize source = .ok tokens ∧ ∀ n ∈ root.subtrees,
      n.label.start ≤ n.label.stop ∧ n.label.stop ≤ source.utf8ByteSize ∧
      String.Pos.Raw.IsValid source ⟨n.label.start⟩ ∧
      String.Pos.Raw.IsValid source ⟨n.label.stop⟩ ∧
      (n.label.start = n.label.stop ↔ root.children = []) ∧
      (∀ c ∈ n.children, n.label.start ≤ c.label.start ∧ c.label.stop ≤ n.label.stop) ∧
      (n.children.Pairwise fun c d => c.label.Before d.label) ∧
      ∀ token, n.token? = some token → ⟨token, n.label⟩ ∈ tokens ∧
        ∃ text rest, Stands source.toList n.label text rest ∧ token.Spelled text rest := by
  obtain ⟨body, s', htokens, hlaid, hends, hbody, hprogram⟩ := parse_laid h
  refine ⟨_, htokens, ?_⟩
  rcases Reader.program_nested hlaid hends hprogram with rfl | ⟨hne, hnested⟩
  -- without statements there is one node, with an empty span at the end of the text
  · intro n hn
    obtain rfl : n = .block ⟨source.utf8ByteSize, source.utf8ByteSize⟩ [] := by
      simpa [Tree.subtrees] using hn
    have hvalid : String.Pos.Raw.IsValid source ⟨source.utf8ByteSize⟩ :=
      String.Pos.Raw.isValid_rawEndPos
    exact ⟨Nat.le_refl _, Nat.le_refl _, hvalid, hvalid, by simp [Tree.label, Tree.children],
      by simp [Tree.children], .nil, by simp [Tree.token?]⟩
  · intro n hn
    obtain ⟨hproper, ⟨a, ha, hstart⟩, ⟨b, hb, hstop⟩, hchildren, htoken⟩ := hnested n hn
    obtain ⟨textA, restA, hstandsA, -⟩ := hbody a ha
    obtain ⟨textB, restB, hstandsB, -⟩ := hbody b hb
    obtain ⟨-, hpairs, hinside⟩ := runs_iff.mp hchildren
    rw [List.pairwise_map] at hpairs
    -- a span starts where a token starts and ends where one ends, both between characters
    have hvalid := hstandsA.isValid.1
    have hvalid' := hstandsB.isValid.2
    rw [hstart] at hvalid
    rw [hstop] at hvalid'
    refine ⟨Nat.le_of_lt hproper, hvalid'.le_utf8ByteSize, hvalid, hvalid',
      iff_of_false (Nat.ne_of_lt hproper) hne, fun c hc => ?_, hpairs, fun token heq => ?_⟩
    · have hc := hinside c.label (List.mem_map_of_mem hc)
      exact ⟨hc.1, hc.2.2⟩
    · have hmem := htoken token heq
      exact ⟨List.mem_append_left _ hmem, hbody _ hmem⟩

/-- In `(fn(x) (x))(é /**/ , 12)` the function and its body are without their parentheses, and the
name takes two bytes. -/
theorem parse_nested_called_function :
    let source := "(fn(x) (x))(é /**/ , 12)"
    let arg : Tree Span := .tuple ⟨11, 25⟩ [.var ⟨12, 14⟩ "é", .int ⟨22, 24⟩ 12]
    let root : Tree Span :=
      .block ⟨0, 25⟩ [.apply ⟨0, 25⟩ (.fn ⟨1, 9⟩ ["x"] (.var ⟨8, 9⟩ "x")) arg]
    parse source = .ok root ∧ (∃ rest, Stands source.toList ⟨12, 14⟩ ['é'] rest) ∧
      (arg.children.Pairwise fun c d => c.label.Before d.label) ∧
      ∀ n ∈ root.subtrees, n.label.start < n.label.stop := by
  intro source arg root
  have hparse : parse source = .ok root := by cbv
  obtain ⟨tokens, -, hnodes⟩ := parse_nested hparse
  have hsubtrees : root.subtrees = [root, .apply ⟨0, 25⟩ (.fn ⟨1, 9⟩ ["x"] (.var ⟨8, 9⟩ "x")) arg,
    .fn ⟨1, 9⟩ ["x"] (.var ⟨8, 9⟩ "x"), .var ⟨8, 9⟩ "x", arg, .var ⟨12, 14⟩ "é",
    .int ⟨22, 24⟩ 12] := rfl
  obtain ⟨-, -, -, -, -, -, -, htoken⟩ := hnodes (.var ⟨12, 14⟩ "é") (by simp [hsubtrees])
  obtain ⟨-, text, rest, hstands, htext, -⟩ := htoken (.ident "é") rfl
  obtain ⟨-, -, -, -, -, -, hpairs, -⟩ := hnodes arg (by simp [hsubtrees])
  obtain rfl : ['é'] = text := htext
  refine ⟨hparse, ⟨rest, hstands⟩, hpairs, fun n hn => ?_⟩
  obtain ⟨hle, -, -, -, hempty, -⟩ := hnodes n hn
  exact Nat.lt_of_le_of_ne hle fun heq => by cases hempty.mp heq

end LetTyping
