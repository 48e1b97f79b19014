import LetTyping.Check
import LetTyping.Tree.Render
import LetTyping.Proofs.Parsing
import LetTyping.Proofs.Scanning
import LetTyping.Proofs.Tree

/-!
# Writing and reading again

A program that is written as source text is read again as the same program, up to labels.  The
argument goes through the tokens: the text of every node is scanned to some tokens, whatever follows
it, and these tokens are a phrase of the grammar with the node as its tree.  Both are shown
together, by induction along the recursion that writes the text.

## Main definitions

* `Tree.parsable`, `Tree.isProgram` — trees that the parser can give.
* `Writes`, `WritesHead`, `WritesLines` — a text is scanned to the tokens of a phrase.
* `Tree.Written` — the text of a node is read as the node.

## Main results

* `Tree.written_all` — every expression and every statement is read as it is written.
* `Generates.parsable` — what is read from a text can be written.
* `parse_render` — **writing and reading again gives the same program.**
-/

namespace LetTyping

/-! ### Punctuation -/

theorem punctuation_open : Punctuation "(" [.openParen] := ⟨rfl, rfl, rfl⟩

theorem punctuation_close : Punctuation ")" [.closeParen] := ⟨rfl, rfl, rfl⟩

theorem punctuation_comma : Punctuation ", " [.comma] := ⟨rfl, rfl, rfl⟩

theorem punctuation_equals : Punctuation " = " [.equals] := ⟨rfl, rfl, rfl⟩

theorem punctuation_blank : Punctuation " " [] := ⟨rfl, rfl, rfl⟩

section Reading

variable [Alphabet]

/-! ### Trees that the parser gives -/

namespace Tree

variable {α : Type}

mutual

/-- The tree is an expression as the parser gives them or, with `stmt`, a statement. -/
def parsable (stmt : Bool) : Tree α → Bool
  | int _ v => isLiteral v
  | var _ x => isName x
  | tuple _ es | array _ es => parsableList false es
  | apply _ f (tuple _ args) => parsable false f && parsableList false args
  | apply _ _ _ => false
  | fn _ xs body => xs.all isName && parsable false body
  | decl _ x value | assign _ x value => stmt && isName x && parsable false value
  | ret _ value => stmt && parsable false value
  | block _ ss => parsableList true ss
  termination_by structural t => t

/-- The trees are expressions or statements as the parser gives them. -/
def parsableList (stmt : Bool) : List (Tree α) → Bool
  | [] => true
  | t :: ts => parsable stmt t && parsableList stmt ts
  termination_by structural ts => ts

end

/-- The tree is a program as the parser gives them: a block at the root. -/
def isProgram : Tree α → Bool
  | block _ ss => parsableList true ss
  | _ => false

end Tree

/-! ### Texts of phrases -/

/-- The text is scanned to tokens that are the phrase. -/
def Writes (ph : Phrase) (text : String) : Prop :=
  ∃ ts, Spells text ts ∧ ∀ rest, NoCall rest → Generates NoCall ph (ts ++ rest) rest

/-- The text is scanned to tokens that are the expression `t`, or a call of it if argument lists
follow. -/
def WritesHead (t : Tree Unit) (text : String) : Prop :=
  ∃ ts, Spells text ts ∧ ∀ t' us rest, Generates NoCall (.calls t t') us rest →
    Generates NoCall (.expr t') (ts ++ us) rest

/-- The text is scanned to tokens that are the statements, whatever follows. -/
def WritesLines (ss : List (Tree Unit)) (text : String) : Prop :=
  ∃ ts, SpellsFreely text ts ∧ ∀ rest, Generates NoCall (.stmts ss) (ts ++ rest) rest

theorem WritesHead.writes {t : Tree Unit} {text : String} (h : WritesHead t text) :
    Writes (.expr t) text := by
  obtain ⟨ts, hspell, hhead⟩ := h
  exact ⟨ts, hspell, fun rest hrest => hhead t rest rest (.noCall hrest)⟩

theorem Writes.bare {t : Tree Unit} {text : String} (h : Writes (.expr t) text) :
    Writes (.bare t) text := by
  obtain ⟨ts, hspell, hexpr⟩ := h
  exact ⟨ts, hspell, fun rest hrest => .value (hexpr rest hrest)⟩

/-- A primary expression may be called. -/
theorem writesHead_of_primary {t : Tree Unit} {text : String} {ts : List Token}
    (hspell : Spells text ts) (h : ∀ rest, Generates NoCall (.primary t) (ts ++ rest) rest) :
    WritesHead t text :=
  ⟨ts, hspell, fun _ us _ hcalls => .expr (h us) hcalls⟩

/-- A primary expression between punctuation. -/
theorem writesHead_enclosed {t : Tree Unit} {first text last : String} {vs ts ws : List Token}
    (hfirst : Punctuation first vs) (hspell : Spells text ts) (hlast : Punctuation last ws)
    (h : ∀ rest, Generates NoCall (.primary t) (vs ++ ts ++ ws ++ rest) rest) :
    WritesHead t (first ++ text ++ last) :=
  writesHead_of_primary ((hfirst.spells.then hspell).punctuated hlast).spells h

section Forms

variable {t head : Tree Unit} {es ss : List (Tree Unit)} {x text text' : String}

theorem Writes.parenthesized (h : Writes (.expr t) text) : WritesHead t ("(" ++ text ++ ")") := by
  obtain ⟨ts, hspell, hexpr⟩ := h
  refine writesHead_enclosed punctuation_open hspell punctuation_close fun rest => ?_
  simpa using Generates.group (hexpr (.closeParen :: rest) (by simp))

/-- The comma tells a tuple of one element from an expression in parentheses. -/
theorem Writes.single (h : Writes (.expr t) text) :
    WritesHead (.tuple () [t]) ("(" ++ text ++ ",)") := by
  obtain ⟨ts, hspell, hexpr⟩ := h
  have hclose : Punctuation ",)" [.comma, .closeParen] := ⟨rfl, rfl, rfl⟩
  refine writesHead_enclosed punctuation_open hspell hclose fun rest => ?_
  simpa using Generates.tuple (hexpr (.comma :: .closeParen :: rest) (by simp)) .noItem

omit [Alphabet] in
/-- A list that is not one expression makes a tuple. -/
theorem Generates.tuple_of_list {follow : List Token → Prop} {ts rest : List Token}
    (h : Generates follow (.list es) ts (.closeParen :: rest)) (hlen : es.length ≠ 1) :
    Generates follow (.primary (.tuple () es)) (.openParen :: ts) rest := by
  cases h with
  | noItem => exact .unit
  | lastItem _ => exact absurd rfl hlen
  | item ht hes => exact .tuple ht hes

theorem Writes.tuple (h : Writes (.list es) text) (hlen : es.length ≠ 1) :
    WritesHead (.tuple () es) ("(" ++ text ++ ")") := by
  obtain ⟨ts, hspell, hlist⟩ := h
  refine writesHead_enclosed punctuation_open hspell punctuation_close fun rest => ?_
  simpa using (hlist (.closeParen :: rest) (by simp)).tuple_of_list hlen

theorem Writes.array (h : Writes (.list es) text) :
    WritesHead (.array () es) ("[" ++ text ++ "]") := by
  obtain ⟨ts, hspell, hlist⟩ := h
  have hopen : Punctuation "[" [.openBracket] := ⟨rfl, rfl, rfl⟩
  have hclose : Punctuation "]" [.closeBracket] := ⟨rfl, rfl, rfl⟩
  refine writesHead_enclosed hopen hspell hclose fun rest => ?_
  simpa using Generates.array (hlist (.closeBracket :: rest) (by simp))

theorem WritesHead.call (hhead : WritesHead head text) (h : Writes (.list es) text') :
    WritesHead (.apply () head (.tuple () es)) (text ++ "(" ++ text' ++ ")") := by
  obtain ⟨ts, hspell, hcalls⟩ := hhead
  obtain ⟨us, hspell', hlist⟩ := h
  have hspell' := ((hspell.punctuated punctuation_open).then hspell').punctuated punctuation_close
  refine ⟨_, hspell'.spells, ?_⟩
  intro t' vs rest ht'
  -- the call is one of the calls of the expression in front of it
  have hcall := Generates.call (hlist (.closeParen :: vs) (by simp)) ht'
  simpa using hcalls t' _ rest hcall

/-- The parameters of a function. -/
theorem spells_params {xs : List String} (h : xs.all isName = true) :
    Spells (String.intercalate ", " xs) (paramTokens xs) := by
  induction xs with
  | nil => exact fun cs us _ hcs => hcs
  | cons x xs ih =>
    rw [List.all_cons, Bool.and_eq_true] at h
    cases xs with
    | nil => simpa [paramTokens] using spells_name h.1
    | cons y xs =>
      rw [String.intercalate_cons_cons]
      exact ((spells_name h.1).punctuated punctuation_comma).then (ih h.2)

theorem Writes.fn {xs : List String} (hxs : xs.all isName = true) (h : Writes (.expr t) text) :
    Writes (.expr (.fn () xs t)) ("fn(" ++ String.intercalate ", " xs ++ ") " ++ text) := by
  obtain ⟨ts, hspell, hexpr⟩ := h
  have hclose : Punctuation ") " [.closeParen] := ⟨rfl, rfl, rfl⟩
  have hword : isWord "fn" = true := isWord_of_letters (by decide) (by decide)
  have hfn : SpellsFreely "fn(" [.fnWord, .openParen] :=
    (spells_word hword).punctuated punctuation_open
  refine ⟨_, ((hfn.then (spells_params hxs)).punctuated hclose).then hspell, fun rest hrest => ?_⟩
  simpa using Generates.expr (.fn (hexpr rest hrest)) (.noCall hrest)

theorem Writes.decl (hx : isName x = true) (h : Writes (.expr t) text) :
    Writes (.bare (.decl () x t)) ("let " ++ x ++ " = " ++ text) := by
  obtain ⟨ts, hspell, hexpr⟩ := h
  have hword : isWord "let" = true := isWord_of_letters (by decide) (by decide)
  have hlet : SpellsFreely "let " [.letWord] :=
    (spells_word hword).punctuated punctuation_blank
  have hspell := ((hlet.then (spells_name hx)).punctuated punctuation_equals).then hspell
  refine ⟨_, hspell, fun rest hrest => ?_⟩
  simpa using Generates.decl (hexpr rest hrest)

theorem Writes.assign (hx : isName x = true) (h : Writes (.expr t) text) :
    Writes (.bare (.assign () x t)) (x ++ " = " ++ text) := by
  obtain ⟨ts, hspell, hexpr⟩ := h
  refine ⟨_, ((spells_name hx).punctuated punctuation_equals).then hspell, fun rest hrest => ?_⟩
  simpa using Generates.assign (hexpr rest hrest)

theorem Writes.ret (h : Writes (.expr t) text) :
    Writes (.bare (.ret () t)) ("return " ++ text) := by
  obtain ⟨ts, hspell, hexpr⟩ := h
  have hword : isWord "return" = true := isWord_of_letters (by decide) (by decide)
  have hreturn : SpellsFreely "return " [.returnWord] :=
    (spells_word hword).punctuated punctuation_blank
  refine ⟨_, hreturn.then hspell, fun rest hrest => ?_⟩
  simpa using Generates.ret (hexpr rest hrest)

theorem writes_noItem : Writes (.list []) "" :=
  ⟨[], fun _ _ _ hcs => hcs, fun _ _ => .noItem⟩

theorem Writes.lastItem (h : Writes (.expr t) text) : Writes (.list [t]) text := by
  obtain ⟨ts, hspell, hexpr⟩ := h
  exact ⟨ts, hspell, fun rest hrest => .lastItem (hexpr rest hrest)⟩

theorem Writes.item (h : Writes (.expr t) text) (hes : Writes (.list es) text') :
    Writes (.list (t :: es)) (text ++ ", " ++ text') := by
  obtain ⟨ts, hspell, hexpr⟩ := h
  obtain ⟨us, hspell', hlist⟩ := hes
  refine ⟨_, (hspell.punctuated punctuation_comma).then hspell', fun rest hrest => ?_⟩
  simpa using Generates.item (hexpr (.comma :: (us ++ rest)) (by simp)) (hlist rest hrest)

theorem spellsFreely_indentation (depth : Nat) : SpellsFreely (Tree.indentation depth) [] := by
  intro cs us hcs
  have hblank : ∀ c ∈ (Tree.indentation depth).toList,
      isMark c = true ∧ Token.ofMark? c = none := by
    intro c hc
    rw [Tree.indentation, String.toList_ofList] at hc
    rw [List.eq_of_mem_replicate hc]
    exact ⟨rfl, rfl⟩
  have hscan := scans_marks (List.all_eq_true.mpr fun c hc => (hblank c hc).1) hcs
  rwa [List.filterMap_eq_nil_iff.mpr fun c hc => (hblank c hc).2] at hscan

theorem writesLines_nil : WritesLines [] "" :=
  ⟨[], fun _ _ hcs => hcs, fun _ => .noStmt⟩

theorem WritesLines.cons (depth : Nat) (h : Writes (.bare t) text) (hss : WritesLines ss text') :
    WritesLines (t :: ss) (Tree.indentation depth ++ text ++ ";\n" ++ text') := by
  obtain ⟨ts, hspell, hbare⟩ := h
  obtain ⟨us, hspell', hstmts⟩ := hss
  have hend : Punctuation ";\n" [.semicolon] := ⟨rfl, rfl, rfl⟩
  refine ⟨_, (((spellsFreely_indentation depth).then hspell).punctuated hend).append hspell',
    fun rest => ?_⟩
  have hstmt := Generates.ended (hbare (.semicolon :: (us ++ rest)) (by simp))
  simpa using Generates.next hstmt (hstmts rest)

theorem writesHead_emptyBlock : WritesHead (.block () []) "\x7b\x7d" := by
  have hbraces : Punctuation "\x7b\x7d" [.openBrace, .closeBrace] := ⟨rfl, rfl, rfl⟩
  exact writesHead_of_primary hbraces.spells.spells fun _ => .block .noStmt

theorem WritesLines.block (depth : Nat) (h : WritesLines ss text) :
    WritesHead (.block () ss) ("\x7b\n" ++ text ++ Tree.indentation depth ++ "\x7d") := by
  obtain ⟨ts, hspell, hstmts⟩ := h
  have hopen : Punctuation "\x7b\n" [.openBrace] := ⟨rfl, rfl, rfl⟩
  have hclose : Punctuation "\x7d" [.closeBrace] := ⟨rfl, rfl, rfl⟩
  refine writesHead_of_primary (((hopen.spells.append hspell).append
    (spellsFreely_indentation depth)).append hclose.spells).spells fun rest => ?_
  simpa using Generates.block (hstmts (.closeBrace :: rest))

end Forms

/-! ### Trees -/

namespace Tree

variable {α : Type}

/-- The text of the node is read as the node: where it is called, as an expression, and as a
statement. -/
structure Written (depth : Nat) (t : Tree α) : Prop where
  head : t.parsable false = true → WritesHead t.shape (t.calleeText (t.renderAt depth))
  expr : t.parsable false = true → Writes (.expr t.shape) (t.renderAt depth)
  stmt : t.parsable true = true → Writes (.bare t.shape) (t.renderAt depth)

/-- Expressions that are called as they are written elsewhere. -/
theorem Written.of_head {depth : Nat} {t : Tree α}
    (hcallee : t.calleeText (t.renderAt depth) = t.renderAt depth)
    (hstmt : t.parsable true = t.parsable false)
    (h : t.parsable false = true → WritesHead t.shape (t.renderAt depth)) : t.Written depth where
  head ht := by
    rw [hcallee]
    exact h ht
  expr ht := (h ht).writes
  stmt ht := (h (hstmt ▸ ht)).writes.bare

/-- Statements that are no expressions. -/
theorem Written.of_stmt {depth : Nat} {t : Tree α} (hexpr : t.parsable false = false)
    (h : t.parsable true = true → Writes (.bare t.shape) (t.renderAt depth)) : t.Written depth where
  head ht := by simp [hexpr] at ht
  expr ht := by simp [hexpr] at ht
  stmt := h

theorem written_all :
    (∀ depth (t : Tree α), t.Written depth) ∧
    (∀ depth (ss : List (Tree α)), parsableList true ss = true →
      WritesLines (ss.map shape) (renderLines depth ss)) ∧
    ∀ depth (es : List (Tree α)), parsableList false es = true →
      Writes (.list (es.map shape)) (renderList depth es) := by
  refine renderAt.mutual_induct _ _ _ ?int ?var ?single ?tuple ?array ?call ?noCall ?fn ?decl
    ?assign ?ret ?emptyBlock ?block ?noLine ?line ?noItem ?lastItem ?item
  case int =>
    intro depth l v
    refine .of_head rfl rfl fun h => ?_
    rw [shape_int]
    exact writesHead_of_primary (spells_int h) fun rest => .int
  case var =>
    intro depth l x
    refine .of_head rfl rfl fun h => ?_
    rw [shape_var]
    exact writesHead_of_primary (spells_name h) fun rest => .var
  case single =>
    intro depth l e ih
    refine .of_head rfl rfl fun h => ?_
    have he : e.parsable false = true := by simpa [parsable, parsableList] using h
    rw [shape_tuple]
    exact (ih.expr he).single
  case tuple =>
    intro depth l es hne ih
    refine .of_head rfl rfl fun h => ?_
    -- the tuple of one element is another case
    have hlen : (es.map shape).length ≠ 1 := by
      rw [List.length_map]
      exact fun hone => (List.length_eq_one_iff.mp hone).elim hne
    rw [shape_tuple, renderAt]
    · exact (ih h).tuple hlen
    · exact hne
  case array =>
    intro depth l es ih
    refine .of_head rfl rfl fun h => ?_
    rw [shape_array]
    exact (ih h).array
  case call =>
    intro depth l f l' args ihf ihargs
    refine .of_head rfl rfl fun h => ?_
    rw [parsable, Bool.and_eq_true] at h
    rw [shape_apply, shape_tuple]
    exact (ihf.head h.1).call (ihargs h.2)
  case noCall =>
    intro depth l f a hne _ _
    -- the argument of a call is always a tuple
    have hfalse : ∀ stmt, (apply l f a).parsable stmt = false := by
      intro stmt
      rw [parsable]
      exact hne
    exact .of_head rfl (by rw [hfalse, hfalse]) fun h => by simp [hfalse] at h
  case fn =>
    intro depth l xs body ih
    have hexpr : (Tree.fn l xs body).parsable false = true →
        Writes (.expr (Tree.fn l xs body).shape) (renderAt depth (.fn l xs body)) := by
      intro h
      rw [parsable, Bool.and_eq_true] at h
      rw [shape_fn]
      exact .fn h.1 (ih.expr h.2)
    -- a function that is called stands in parentheses
    exact ⟨fun h => (hexpr h).parenthesized, hexpr, fun h => (hexpr h).bare⟩
  case decl =>
    intro depth l x value ih
    refine .of_stmt rfl fun h => ?_
    have hparts : isName x = true ∧ value.parsable false = true := by simpa [parsable] using h
    rw [shape_decl]
    exact .decl hparts.1 (ih.expr hparts.2)
  case assign =>
    intro depth l x value ih
    refine .of_stmt rfl fun h => ?_
    have hparts : isName x = true ∧ value.parsable false = true := by simpa [parsable] using h
    rw [shape_assign]
    exact .assign hparts.1 (ih.expr hparts.2)
  case ret =>
    intro depth l value ih
    refine .of_stmt rfl fun h => ?_
    rw [shape_ret]
    exact .ret (ih.expr h)
  case emptyBlock =>
    intro depth l
    refine .of_head rfl rfl fun h => ?_
    rw [shape_block]
    exact writesHead_emptyBlock
  case block =>
    intro depth l ss hne ih
    refine .of_head rfl rfl fun h => ?_
    rw [shape_block, renderAt]
    · exact (ih h).block depth
    · exact hne
  case noLine => exact fun depth _ => writesLines_nil
  case line =>
    intro depth s ss ih ihs h
    rw [parsableList, Bool.and_eq_true] at h
    exact .cons depth (ih.stmt h.1) (ihs h.2)
  case noItem => exact fun depth _ => writes_noItem
  case lastItem =>
    intro depth e ih h
    have he : e.parsable false = true := by simpa [parsableList] using h
    exact (ih.expr he).lastItem
  case item =>
    intro depth e es hne ih ihs h
    rw [parsableList, Bool.and_eq_true] at h
    rw [renderList]
    · exact (ih.expr h.1).item (ihs h.2)
    · exact hne

/-! ### Texts do not depend on labels -/

omit [Alphabet] in
@[simp] theorem calleeText_shape (t : Tree α) (text : String) :
    t.shape.calleeText text = t.calleeText text := by
  cases t <;> simp [calleeText]

omit [Alphabet] in
theorem render_shape_all :
    (∀ depth (t : Tree α), t.shape.renderAt depth = t.renderAt depth) ∧
    (∀ depth (ss : List (Tree α)), renderLines depth (ss.map shape) = renderLines depth ss) ∧
    ∀ depth (es : List (Tree α)), renderList depth (es.map shape) = renderList depth es := by
  refine renderAt.mutual_induct _ _ _ ?int ?var ?single ?tuple ?array ?call ?noCall ?fn ?decl
    ?assign ?ret ?emptyBlock ?block ?noLine ?line ?noItem ?lastItem ?item
  -- tuples of one element are written in their own way, and forgetting labels keeps the number
  case tuple =>
    intro depth l es hne ih
    rw [shape_tuple, renderAt, renderAt, ih]
    · exact hne
    · intro e he
      obtain ⟨e', rfl, -⟩ := List.map_eq_singleton_iff.mp he
      exact hne e' rfl
  case noCall =>
    intro depth l f a hne ihf iha
    rw [shape_apply, renderAt, renderAt, calleeText_shape, ihf, iha]
    · exact hne
    · intro l' args ha
      cases a <;> simp at ha
      exact hne _ _ rfl
  case block =>
    intro depth l ss hne ih
    rw [shape_block, renderAt, renderAt, ih]
    · exact hne
    · exact fun h => hne (List.map_eq_nil_iff.mp h)
  case item =>
    intro depth e es hne ih ihs
    rw [List.map_cons, renderList, renderList, ih, ihs]
    · exact hne
    · exact fun h => hne (List.map_eq_nil_iff.mp h)
  -- the other cases are written from the texts of their parts
  all_goals
    intros
    simp_all [renderAt, renderLines, renderList]

omit [Alphabet] in
/-- The text of a program is the text of the statements without their labels. -/
theorem renderProgram_of_shape {t : Tree α} {ss : List (Tree Unit)} (h : t.shape = .block () ss) :
    t.renderProgram = renderLines 0 ss := by
  cases t with
  | block l ss' =>
    rw [shape_block] at h
    cases h
    exact (render_shape_all.2.1 0 ss').symm
  | _ => simp at h

omit [Alphabet] in
/-- A tree without labels is its own shape. -/
theorem shape_unit (t : Tree Unit) : t.shape = t := map_eq_self (fun _ => rfl) t

/-- Expressions are statements. -/
theorem parsable_stmt {t : Tree α} (h : t.parsable false = true) : t.parsable true = true := by
  cases t with
  | apply l f a => cases a <;> exact h
  | decl | assign | ret => simp [parsable] at h
  | _ => exact h

end Tree

/-! ### Trees of texts -/

/-- The tree of the phrase is as the parser gives them. -/
def Phrase.Parsable : Phrase → Prop
  | primary t | expr t => t.parsable false = true
  | calls head t => head.parsable false = true → t.parsable false = true
  | list es => Tree.parsableList false es = true
  | bare s | stmt s => s.parsable true = true
  | stmts ss => Tree.parsableList true ss = true

omit [Alphabet] in
theorem mem_paramTokens {x : String} {xs : List String} (h : x ∈ xs) :
    .ident x ∈ paramTokens xs := by
  induction xs with
  | nil => cases h
  | cons y xs ih =>
    cases xs with
    | nil => simpa [paramTokens] using h
    | cons z xs =>
      rcases List.mem_cons.mp h with rfl | h
      · exact List.mem_cons_self
      · exact List.mem_cons_of_mem _ (List.mem_cons_of_mem _ (ih h))

/-- The trees of tokens that come from a text are as the parser gives them. -/
theorem Generates.parsable {follow : List Token → Prop} {ph : Phrase} {ts rest : List Token}
    (h : Generates follow ph ts rest) (hts : Scanned ts) : ph.Parsable ∧ Scanned rest := by
  induction h with
  | int | var => exact List.forall_mem_cons.mp hts
  | unit => exact ⟨rfl, hts.tail.tail⟩
  | group _ ih =>
    obtain ⟨ht, hrest⟩ := ih hts.tail
    exact ⟨ht, hrest.tail⟩
  | tuple _ _ ih₁ ih₂ =>
    obtain ⟨ht, hus⟩ := ih₁ hts.tail
    obtain ⟨hes, hrest⟩ := ih₂ hus.tail
    exact ⟨Bool.and_eq_true_iff.mpr ⟨ht, hes⟩, hrest.tail⟩
  | array _ ih | block _ ih =>
    obtain ⟨hes, hrest⟩ := ih hts.tail
    exact ⟨hes, hrest.tail⟩
  | @fn xs body ts rest _ ih =>
    obtain ⟨hbody, hrest⟩ := ih fun token htoken => hts token (by simp [htoken])
    -- a parameter is among the tokens of the text, so it is a name
    have hxs : xs.all isName = true := List.all_eq_true.mpr fun x hx =>
      hts (.ident x) (by simp [mem_paramTokens hx])
    exact ⟨Bool.and_eq_true_iff.mpr ⟨hxs, hbody⟩, hrest⟩
  -- calls are parsable if what is called is; this is given at the end, by the head
  | noCall _ => exact ⟨fun h => h, hts⟩
  | call _ _ ih₁ ih₂ =>
    obtain ⟨hes, hus⟩ := ih₁ hts.tail
    obtain ⟨ht, hrest⟩ := ih₂ hus.tail
    exact ⟨fun hf => ht (Bool.and_eq_true_iff.mpr ⟨hf, hes⟩), hrest⟩
  | expr _ _ ih₁ ih₂ =>
    obtain ⟨hhead, hus⟩ := ih₁ hts
    obtain ⟨ht, hrest⟩ := ih₂ hus
    exact ⟨ht hhead, hrest⟩
  | noItem | noStmt => exact ⟨rfl, hts⟩
  | lastItem _ ih =>
    obtain ⟨ht, hrest⟩ := ih hts
    exact ⟨Bool.and_eq_true_iff.mpr ⟨ht, rfl⟩, hrest⟩
  | item _ _ ih₁ ih₂ =>
    obtain ⟨ht, hus⟩ := ih₁ hts
    obtain ⟨hes, hrest⟩ := ih₂ hus.tail
    exact ⟨Bool.and_eq_true_iff.mpr ⟨ht, hes⟩, hrest⟩
  | @decl x t ts rest _ ih =>
    obtain ⟨ht, hrest⟩ := ih hts.tail.tail.tail
    have hx : isName x = true := hts (.ident x) (by simp)
    exact ⟨Bool.and_eq_true_iff.mpr ⟨hx, ht⟩, hrest⟩
  | ret _ ih => exact ih hts.tail
  | @assign x t ts rest _ ih =>
    obtain ⟨ht, hrest⟩ := ih hts.tail.tail
    have hx : isName x = true := hts (.ident x) (by simp)
    exact ⟨Bool.and_eq_true_iff.mpr ⟨hx, ht⟩, hrest⟩
  | value _ ih =>
    obtain ⟨ht, hrest⟩ := ih hts
    exact ⟨Tree.parsable_stmt ht, hrest⟩
  | plain _ ih => exact ih hts
  | ended _ ih =>
    obtain ⟨hs, hrest⟩ := ih hts
    exact ⟨hs, hrest.tail⟩
  | next _ _ ih₁ ih₂ =>
    obtain ⟨hs, hus⟩ := ih₁ hts
    obtain ⟨hss, hrest⟩ := ih₂ hus
    exact ⟨Bool.and_eq_true_iff.mpr ⟨hs, hss⟩, hrest⟩

theorem parse_ok_iff {source : String} {t : Tree Span} :
    parse source = .ok t ↔ ∃ tokens, tokenize source = .ok tokens ∧ parseTokens tokens = .ok t := by
  unfold parse
  cases tokenize source with
  | error e => simp
  | ok tokens =>
    cases htokens : parseTokens tokens with
    | error e => simp [htokens]
    | ok t' => simp [htokens]

/-- A text whose tokens are statements is read as these statements. -/
theorem parse_of_scans {source : String} {ts : List Token} {ss : List (Tree Unit)}
    (hscan : Scans source.toList ts) (h : Generates NoCall (.stmts ss) ts []) :
    ∃ t, parse source = .ok t ∧ t.shape = .block () ss := by
  obtain ⟨tokens, htokens, hkinds⟩ := hscan 0
  obtain ⟨body, stop, rfl, hstop, hbody⟩ := tokenize_ok htokens
  have hts : kinds body = ts := by
    rw [kinds, List.map_append] at hkinds
    exact List.append_inj_left' hkinds rfl
  obtain ⟨t, ht, hshape⟩ := parseTokens_of_generates hbody.ne_eof hstop (hts ▸ h)
  exact ⟨t, parse_ok_iff.mpr ⟨_, htokens, ht⟩, hshape⟩

/-- The tree of a text is as the parser gives them. -/
theorem parsable_of_parse {source : String} {t : Tree Span} (h : parse source = .ok t) :
    ∃ ss, t.shape = .block () ss ∧ Tree.parsableList true ss = true := by
  obtain ⟨tokens, htokens, ht⟩ := parse_ok_iff.mp h
  obtain ⟨body, stop, rfl, hstop, hbody⟩ := tokenize_ok htokens
  obtain ⟨ss, hshape, hss⟩ := generates_of_parseTokens hbody.ne_eof hstop ht
  exact ⟨ss, hshape, (hss.parsable hbody).1⟩

theorem parse_renderLines {α : Type} {ss : List (Tree α)} (h : Tree.parsableList true ss = true) :
    ∃ t, parse (Tree.renderLines 0 ss) = .ok t ∧ t.shape = .block () (ss.map Tree.shape) := by
  obtain ⟨ts, hspell, hstmts⟩ := Tree.written_all.2.1 0 ss h
  have hscan := hspell [] [] .nil
  have hstmts := hstmts []
  simp only [List.append_nil] at hscan hstmts
  exact parse_of_scans hscan hstmts

/-- **What is written is read again.**  The text of a program is read as the program, and the text
of an expression as the program with this one statement, up to labels.  So a program that is
written, read and written again has the same text. -/
theorem parse_render :
    (∀ {α : Type} (t : Tree α), t.isProgram = true →
      ∃ t', parse t.renderProgram = .ok t' ∧ t'.shape = t.shape) ∧
    (∀ {α : Type} (e : Tree α), e.parsable false = true →
      ∃ t', parse e.render = .ok t' ∧ t'.shape = .block () [e.shape]) ∧
    ∀ source t, parse source = .ok t →
      ∃ t', parse t.renderProgram = .ok t' ∧ t'.shape = t.shape ∧
        t'.renderProgram = t.renderProgram := by
  refine ⟨fun t ht => ?_, fun e he => ?_, fun source t ht => ?_⟩
  · cases t with
    | block l ss =>
      rw [Tree.shape_block]
      exact parse_renderLines ht
    | _ => cases ht
  · obtain ⟨ts, hspell, hexpr⟩ := (Tree.written_all.1 0 e).expr he
    have hscan := hspell [] [] separated_nil .nil
    -- nothing follows the expression, and so no call of it
    have hexpr := hexpr [] noCall_nil
    simp only [List.append_nil] at hscan hexpr
    exact parse_of_scans hscan (.next (.plain (.value hexpr)) .noStmt)
  · obtain ⟨ss, hshape, hss⟩ := parsable_of_parse ht
    obtain ⟨t', ht', hshape'⟩ := parse_renderLines hss
    -- a tree that has no labels is its own shape
    have hsame : ss.map Tree.shape = ss :=
      (List.map_congr_left fun t _ => Tree.shape_unit t).trans (List.map_id ss)
    rw [hsame] at hshape'
    rw [Tree.renderProgram_of_shape hshape]
    exact ⟨t', ht', hshape'.trans hshape.symm, Tree.renderProgram_of_shape hshape'⟩

end Reading

/-- A program with a function that is called and a tuple of one element. -/
theorem parse_render_called_function :
    let double : Tree Unit := .fn () ["x"] (.apply () (.var () "add")
      (.tuple () [.var () "x", .var () "x"]))
    let call : Tree Unit := .apply () double (.tuple () [.int () 21])
    let program : Tree Unit := .block () [.decl () "y" (.tuple () [call]), .ret () (.var () "y")]
    program.isProgram = true ∧ call.parsable false = true ∧
      ∃ t t' t'', parse program.renderProgram = .ok t ∧ t.shape = program.shape ∧
        parse call.render = .ok t' ∧ t'.shape = .block () [call.shape] ∧
        parse t.renderProgram = .ok t'' ∧ t''.renderProgram = t.renderProgram := by
  intro double call program
  have hprogram : program.isProgram = true := by decide +kernel
  have hcall : call.parsable false = true := by decide +kernel
  obtain ⟨hfirst, hexpr, hagain⟩ := parse_render
  obtain ⟨t, ht, hshape⟩ := hfirst program hprogram
  obtain ⟨t', ht', hshape'⟩ := hexpr call hcall
  obtain ⟨t'', ht'', -, htext⟩ := hagain _ t ht
  exact ⟨hprogram, hcall, t, t', t'', ht, hshape, ht', hshape', ht'', htext⟩

end LetTyping
