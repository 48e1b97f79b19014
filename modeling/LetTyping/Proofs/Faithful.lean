import LetTyping.Proofs.Form
import LetTyping.Proofs.TypeText

/-!
# Texts of types are faithful

Types that are written one after another under one naming have the same texts as other types exactly
if the two lists differ in the numbers of their variables alone.  So a text says all there is to say
about a type, and the names say which variables of different types are the same.

Reading a text from the left, its first character tells a variable, a base type and a mark of
failure apart from each other and from what is in parentheses.  A tuple and a function type go on
alike, up to the parenthesis that closes the list: a comma before it belongs to a tuple of one, and
an arrow behind it to a function type.  An arrow never closes a type off, so the two are told apart
there.

## Main definitions

* `Term.chars`, `Term.listChars` — texts of types and of lists of types, for variables by number.
* `Term.opening` — what the first character of a text tells about a type.
* `Term.Read` — a type is read off from the beginning of a text.
* `Naming.index` — a type with the places of its variables in a naming.

## Main results

* `Term.read` — every type of the language is read off from its text, whatever follows.
* `Naming.renderAll_eq_map` — the texts of some types, from the places of their variables.
* `renderAll_eq_iff` — **texts are equal exactly if one renaming takes the types to each other.**
-/

namespace LetTyping

namespace Term

/-! ### Texts -/

/-- The text of a type whose variables are named by their numbers. -/
def chars (t : Term Nat) : List Char := (t.render variableName false).toList

/-- The text of types that are separated by commas. -/
def listChars (ts : List (Term Nat)) : List Char := (renderList variableName ts).toList

variable {t u result : Term Nat} {ts us params : List (Term Nat)} {k k' : List Char}

/-- What closes a tuple type of the given number of elements. -/
def closing (count : Nat) : List Char := if count = 1 then [',', ')'] else [')']

theorem chars_product (ts : List (Term Nat)) :
    chars (.con Ty.productName ts) = '(' :: (listChars ts ++ closing ts.length) := by
  have hname : ¬(Ty.productName = Ty.arrowName ∧ ts.length = 2) := fun h => absurd h.1 (by decide)
  rw [chars, render, if_neg hname, conText, if_pos rfl]
  by_cases hone : ts.length = 1
  · simp [hone, listChars, closing]
  · simp [hone, listChars, closing]

/-- The parameters of a function are a list in parentheses, also if there is one of them only. -/
theorem chars_arrow (params : List (Term Nat)) (result : Term Nat) :
    chars (.con Ty.arrowName [.con Ty.productName params, result]) =
      '(' :: (listChars params ++ ')' :: (" -> ".toList ++ chars result)) := by
  have hname : ¬(Ty.productName = Ty.arrowName ∧ params.length = 2) :=
    fun h => absurd h.1 (by decide)
  have hparams : render variableName true (.con Ty.productName params) =
      "(" ++ renderList variableName params ++ ")" := by
    rw [render, if_neg hname, conText, if_pos rfl, if_neg (by simp)]
  rw [chars, render, if_pos ⟨rfl, rfl⟩, renderArrow, hparams]
  simp [chars, listChars]

theorem chars_failure (fn attempted : Term Nat) :
    chars (.con Ty.failureName [fn, attempted]) =
      "!Fail!<".toList ++ (chars fn ++ (", ".toList ++ (chars attempted ++ ['>']))) := by
  have hname : ¬(Ty.failureName = Ty.arrowName ∧ [fn, attempted].length = 2) :=
    fun h => absurd h.1 (by decide)
  rw [chars, render, if_neg hname, conText, if_neg (by decide), if_neg (by simp), renderList_cons,
    renderList]
  simp [chars, Ty.failureName]

theorem listChars_cons (t u : Term Nat) (ts : List (Term Nat)) :
    listChars (t :: u :: ts) = chars t ++ (", ".toList ++ listChars (u :: ts)) := by
  rw [listChars, renderList_cons]
  simp [chars, listChars]

/-! ### First characters -/

/-- What the first character of a type's text tells about the type: a small letter that it is a
variable, and every other character itself. -/
def opening : Term Nat → Option Char
  | .var _ => none
  | .con n _ => if n = Ty.productName ∨ n = Ty.arrowName then some '(' else n.toList.head?

theorem Formed.chars_head (h : t.Formed) :
    ∃ c rest, chars t = c :: rest ∧ t.opening = if c.isLower then none else some c := by
  cases h with
  | var n =>
    obtain ⟨c, ds, hname, hlower, -⟩ := isName_variableName n
    exact ⟨c, ds, hname, by rw [if_pos hlower]; rfl⟩
  | int => exact ⟨'I', ['n', 't'], rfl, rfl⟩
  | unit => exact ⟨'U', ['n', 'i', 't'], rfl, rfl⟩
  | product => exact ⟨'(', _, chars_product _, rfl⟩
  | arrow => exact ⟨'(', _, chars_arrow _ _, rfl⟩
  | failure => exact ⟨'!', _, chars_failure _ _, rfl⟩

/-- Types whose texts begin alike open alike. -/
theorem Formed.opening_eq (ht : t.Formed) (hu : u.Formed) (heq : chars t ++ k = chars u ++ k') :
    t.opening = u.opening := by
  obtain ⟨c, rest, htext, ht⟩ := ht.chars_head
  obtain ⟨c', rest', hutext, hu⟩ := hu.chars_head
  rw [htext, hutext, List.cons_append, List.cons_append, List.cons.injEq] at heq
  rw [ht, hu, heq.1]

/-- A text of a type does not begin with what stands behind the last type of a list. -/
theorem Formed.not_close (h : u.Formed) {c : Char} (hc : c = ')' ∨ c = ',') :
    c :: k ≠ chars u ++ k' := by
  obtain ⟨c', rest, htext, hopening⟩ := h.chars_head
  intro heq
  rw [htext, List.cons_append, List.cons.injEq] at heq
  obtain ⟨rfl, -⟩ := heq
  have hsome : u.opening = some c := by
    rcases hc with rfl | rfl <;> exact hopening
  cases h <;> rcases hc with rfl | rfl <;>
    simp [opening, Ty.productName, Ty.arrowName, Ty.failureName] at hsome

/-! ### Reading -/

/-- The type is read off from the beginning of a text, if what follows closes a type off. -/
def Read (t : Term Nat) : Prop :=
  ∀ {u : Term Nat} {k k' : List Char}, u.Formed → Ends false k → Ends false k' →
    chars t ++ k = chars u ++ k' → t = u ∧ k = k'

/-- What closes a list of types: a parenthesis, or a comma before one. -/
def Closes (k : List Char) : Prop := (∃ r, k = ')' :: r) ∨ ∃ r, k = ',' :: ')' :: r

theorem Closes.ends (h : Closes k) : Ends false k := by
  rcases h with ⟨r, rfl⟩ | ⟨r, rfl⟩ <;> simp [Ends]

/-- A list that ends is told from one that goes on. -/
theorem Closes.not_goes_on (h : Closes k) (r : List Char) : k ≠ ", ".toList ++ r := by
  rcases h with ⟨r', rfl⟩ | ⟨r', rfl⟩ <;> simp

theorem closes_closing (count : Nat) (k : List Char) : Closes (closing count ++ k) := by
  rw [closing]
  split
  · exact Or.inr ⟨k, rfl⟩
  · exact Or.inl ⟨k, rfl⟩

/-- A tuple type is told from a function type where its list is closed: no arrow follows. -/
theorem closing_ne_arrow (hk : Ends false k) (count : Nat) (r : List Char) :
    closing count ++ k ≠ ')' :: (" -> ".toList ++ r) := by
  intro heq
  rw [closing] at heq
  split at heq
  · exact absurd (List.cons.inj heq).1 (by decide)
  · obtain rfl := (List.cons.inj heq).2
    exact absurd (hk ' ' (by simp)) (by decide)

theorem Closes.not_chars (h : Closes k) (hu : u.Formed) : k ≠ chars u ++ k' := by
  rcases h with ⟨r, rfl⟩ | ⟨r, rfl⟩
  · exact hu.not_close (Or.inl rfl)
  · exact hu.not_close (Or.inr rfl)

/-- Lists of types are read off type by type, and their ends are told from what follows a type. -/
theorem read_list (hts : ∀ t ∈ ts, t.Formed) (hread : ∀ t ∈ ts, Read t) (hus : ∀ u ∈ us, u.Formed)
    (hk : Closes k) (hk' : Closes k')
    (heq : listChars ts ++ k = listChars us ++ k') : ts = us ∧ k = k' := by
  have hcomma : ∀ r : List Char, Ends false (", ".toList ++ r) := by simp [Ends]
  -- the text of a list behind its first type
  have hsplit : ∀ (t : Term Nat) (ts : List (Term Nat)) (k : List Char), Closes k →
      ∃ r, listChars (t :: ts) ++ k = chars t ++ r ∧ Ends false r ∧
        (ts = [] ∧ r = k ∨ r = ", ".toList ++ (listChars ts ++ k)) := by
    intro t ts k hk
    cases ts with
    | nil => exact ⟨k, rfl, hk.ends, Or.inl ⟨rfl, rfl⟩⟩
    | cons u us =>
      refine ⟨_, ?_, hcomma _, Or.inr rfl⟩
      rw [listChars_cons]
      simp only [List.append_assoc]
  induction ts generalizing us with
  | nil =>
    cases us with
    | nil => exact ⟨rfl, heq⟩
    | cons u us =>
      obtain ⟨r, htext, -, -⟩ := hsplit u us k' hk'
      rw [htext] at heq
      exact absurd heq (hk.not_chars (hus u (by simp)))
  | cons t ts ih =>
    rw [List.forall_mem_cons] at hts hread
    obtain ⟨r, htext, hr, hcases⟩ := hsplit t ts k hk
    rw [htext] at heq
    cases us with
    | nil => exact absurd heq.symm (hk'.not_chars hts.1)
    | cons u us =>
      rw [List.forall_mem_cons] at hus
      obtain ⟨r', htext', hr', hcases'⟩ := hsplit u us k' hk'
      rw [htext'] at heq
      obtain ⟨rfl, rfl⟩ := hread.1 hus.1 hr hr' heq
      rcases hcases with ⟨rfl, rfl⟩ | hrest
      · rcases hcases' with ⟨rfl, rfl⟩ | hrest'
        · exact ⟨rfl, rfl⟩
        · exact absurd hrest' (hk.not_goes_on _)
      · rcases hcases' with ⟨rfl, rfl⟩ | hrest'
        · exact absurd hrest (hk'.not_goes_on _)
        · obtain ⟨rfl, rfl⟩ := ih hts.2 hread.2 hus.2
            (List.append_cancel_left (hrest.symm.trans hrest'))
          exact ⟨rfl, rfl⟩

/-- Function types are read off as a list of parameters, an arrow and a result. -/
theorem read_arrow (hparams : ∀ t ∈ params, t.Formed) (hread : ∀ t ∈ params, Read t)
    (hresult : Read result) {params' : List (Term Nat)} {result' : Term Nat}
    (hparams' : ∀ t ∈ params', t.Formed) (hresult' : result'.Formed) (hk : Ends false k)
    (hk' : Ends false k')
    (heq : chars (.con Ty.arrowName [.con Ty.productName params, result]) ++ k =
      chars (.con Ty.arrowName [.con Ty.productName params', result']) ++ k') :
    params = params' ∧ result = result' ∧ k = k' := by
  rw [chars_arrow, chars_arrow] at heq
  simp only [List.cons_append, List.append_assoc, List.cons.injEq, true_and] at heq
  obtain ⟨rfl, hrest⟩ := read_list hparams hread hparams' (Or.inl ⟨_, rfl⟩) (Or.inl ⟨_, rfl⟩) heq
  have hbehind := List.append_cancel_left (List.cons.inj hrest).2
  obtain ⟨rfl, rfl⟩ := hresult hresult' hk hk' hbehind
  exact ⟨rfl, rfl, rfl⟩

/-- **Every type of the language is read off from its text, whatever follows.** -/
theorem read (h : t.Formed) : Read t := by
  -- the first character leaves one form, but for tuples and functions, which both open a list
  induction h with
  | var n =>
    intro u k k' hu hk hk' heq
    have hopen := (Formed.var n).opening_eq hu heq
    cases hu with
    | var m =>
      obtain ⟨hname, rfl⟩ := (isName_variableName n).append_inj (isName_variableName m)
        hk.not_digit hk'.not_digit heq
      rw [variableName_injective (String.toList_inj.mp hname)]
      exact ⟨rfl, rfl⟩
    | _ => simp [opening, Ty.productName, Ty.arrowName, Ty.failureName] at hopen
  | int =>
    intro u k k' hu _ _ heq
    have hopen := Formed.int.opening_eq hu heq
    cases hu with
    | int => exact ⟨rfl, List.append_cancel_left heq⟩
    | _ => simp [opening, Ty.productName, Ty.arrowName, Ty.failureName] at hopen
  | unit =>
    intro u k k' hu _ _ heq
    have hopen := Formed.unit.opening_eq hu heq
    cases hu with
    | unit => exact ⟨rfl, List.append_cancel_left heq⟩
    | _ => simp [opening, Ty.productName, Ty.arrowName, Ty.failureName] at hopen
  | product hts ih =>
    intro u k k' hu hk hk' heq
    have hopen := (Formed.product hts).opening_eq hu heq
    cases hu with
    | product hus =>
      rw [chars_product, chars_product] at heq
      simp only [List.cons_append, List.append_assoc, List.cons.injEq, true_and] at heq
      obtain ⟨rfl, hrest⟩ := read_list hts ih hus (closes_closing _ k) (closes_closing _ k') heq
      exact ⟨rfl, List.append_cancel_left hrest⟩
    | arrow hparams _ =>
      rw [chars_product, chars_arrow] at heq
      simp only [List.cons_append, List.append_assoc, List.cons.injEq, true_and] at heq
      obtain ⟨-, hrest⟩ := read_list hts ih hparams (closes_closing _ k) (Or.inl ⟨_, rfl⟩) heq
      exact absurd hrest (closing_ne_arrow hk _ _)
    | _ => simp [opening, Ty.productName, Ty.arrowName, Ty.failureName] at hopen
  | arrow hparams hresult ih ihr =>
    intro u k k' hu hk hk' heq
    have hopen := (Formed.arrow hparams hresult).opening_eq hu heq
    cases hu with
    | arrow hparams' hresult' =>
      obtain ⟨rfl, rfl, rfl⟩ := read_arrow hparams ih ihr hparams' hresult' hk hk' heq
      exact ⟨rfl, rfl⟩
    | product hus =>
      rw [chars_arrow, chars_product] at heq
      simp only [List.cons_append, List.append_assoc, List.cons.injEq, true_and] at heq
      obtain ⟨-, hrest⟩ := read_list hparams ih hus (Or.inl ⟨_, rfl⟩) (closes_closing _ k') heq
      exact absurd hrest.symm (closing_ne_arrow hk' _ _)
    | _ => simp [opening, Ty.productName, Ty.arrowName, Ty.failureName] at hopen
  | failure hfn hargs hresult ihf ih ihr =>
    intro u k k' hu hk hk' heq
    have hopen := (Formed.failure hfn hargs hresult).opening_eq hu heq
    cases hu with
    | failure hfn' hargs' hresult' =>
      have hcomma : ∀ r : List Char, Ends false (", ".toList ++ r) := by simp [Ends]
      have hangle : ∀ r : List Char, Ends false (['>'] ++ r) := by simp [Ends]
      rw [chars_failure, chars_failure] at heq
      simp only [List.append_assoc] at heq
      obtain ⟨rfl, hrest⟩ := ihf hfn' (hcomma _) (hcomma _) (List.append_cancel_left heq)
      obtain ⟨rfl, rfl, hend⟩ := read_arrow hargs ih ihr hargs' hresult' (hangle k) (hangle k')
        (List.append_cancel_left hrest)
      exact ⟨rfl, List.append_cancel_left hend⟩
    | _ => simp [opening, Ty.productName, Ty.arrowName, Ty.failureName] at hopen

/-- Types of the language with the same texts are equal. -/
theorem texts_injective {ts us : List (Term Nat)} (hts : ∀ t ∈ ts, t.Formed)
    (hus : ∀ u ∈ us, u.Formed)
    (heq : ts.map (render variableName false) = us.map (render variableName false)) : ts = us := by
  induction ts generalizing us with
  | nil => exact (List.map_eq_nil_iff.mp heq.symm).symm
  | cons t ts ih =>
    cases us with
    | nil => cases heq
    | cons u us =>
      rw [List.forall_mem_cons] at hts hus
      obtain ⟨htext, hrest⟩ := List.cons.inj heq
      have hend : Ends false [] := by simp [Ends]
      obtain ⟨rfl, -⟩ := read hts.1 hus.1 hend hend (congrArg (·.toList ++ []) htext)
      rw [ih hts.2 hus.2 hrest]

end Term

/-! ### Namings -/

/-- A renaming that keeps the variables of a list apart can be extended to all variables: the others
go beyond all that are taken. -/
theorem exists_injective_of_injOn {names : List Nat} {g : Nat → Nat}
    (hg : Set.InjOn g {n | n ∈ names}) :
    ∃ f : Nat → Nat, Function.Injective f ∧ ∀ n ∈ names, f n = g n := by
  -- the images of the list lie below their sum, and the other variables are sent above it
  have hle : ∀ n ∈ names, g n ≤ (names.map g).sum := fun n hn =>
    List.le_sum_of_mem (List.mem_map_of_mem hn)
  refine ⟨fun n => if n ∈ names then g n else n + (names.map g).sum + 1, fun n m heq => ?_,
    fun n hn => if_pos hn⟩
  -- two variables on the same side are told apart there, and the sides do not meet
  by_cases hn : n ∈ names
  · by_cases hm : m ∈ names
    · simp only [if_pos hn, if_pos hm] at heq
      exact hg hn hm heq
    · have := hle n hn
      simp only [if_pos hn, if_neg hm] at heq
      omega
  · by_cases hm : m ∈ names
    · have := hle m hm
      simp only [if_neg hn, if_pos hm] at heq
      omega
    · simp only [if_neg hn, if_neg hm] at heq
      omega

namespace Naming

variable {names : Naming} {ts us : List Ty} {t : Ty} {n : Nat}

/-- A type with the places of its variables in a naming. -/
def index (names : Naming) (t : Ty) : Term Nat := t.untagged.map fun n => names.idxOf n

/-- The naming with all the variables of some types. -/
def addList (names : Naming) (ts : List Ty) : Naming := ts.foldl addAll names

theorem mem_addList : n ∈ names.addList ts ↔ n ∈ names ∨ ∃ t ∈ ts, n ∈ t.ids := by
  induction ts generalizing names with
  | nil => simp [addList]
  | cons t ts ih =>
    show n ∈ (names.addAll t).addList ts ↔ _
    rw [ih, mem_addAll, or_assoc]
    simp

/-- Variables are named once, and keep their names. -/
theorem addAll_spec (names : Naming) (t : Ty) :
    names <+: names.addAll t ∧ (names.Nodup → (names.addAll t).Nodup) := by
  rw [addAll]
  induction t.vars generalizing names with
  | nil => exact ⟨List.prefix_refl names, id⟩
  | cons v vs ih =>
    have hadd : names <+: names.add v ∧ (names.Nodup → (names.add v).Nodup) := by
      rw [add]
      split
      · exact ⟨List.prefix_refl names, id⟩
      · next hv =>
        exact ⟨List.prefix_append names [v.id], fun h => List.nodup_append.mpr
          ⟨h, List.nodup_singleton _, fun a ha b hb heq => hv (by simp_all)⟩⟩
    exact ⟨hadd.1.trans (ih _).1, fun h => (ih _).2 (hadd.2 h)⟩

theorem addList_spec (names : Naming) (ts : List Ty) :
    names <+: names.addList ts ∧ (names.Nodup → (names.addList ts).Nodup) := by
  induction ts generalizing names with
  | nil => exact ⟨List.prefix_refl names, id⟩
  | cons t ts ih =>
    obtain ⟨hbegins, hnodup⟩ := names.addAll_spec t
    exact ⟨hbegins.trans (ih _).1, fun h => (ih _).2 (hnodup h)⟩

theorem idxOf_addList (hn : n ∈ names) (ts : List Ty) :
    (names.addList ts).idxOf n = names.idxOf n := by
  obtain ⟨rest, hrest⟩ := (names.addList_spec ts).1
  rw [← hrest, List.idxOf_append_of_mem hn]

/-- The texts of some types, from the places of their variables in the naming of them all. -/
theorem renderAll_eq_map (names : Naming) (ts : List Ty) :
    names.renderAll ts =
      (ts.map (names.addList ts).index).map (Term.render variableName false) := by
  induction ts generalizing names with
  | nil => rfl
  | cons t ts ih =>
    have hhead : (((names.addAll t).addList ts).index t).render variableName false =
        t.untagged.render (fun n => variableName ((names.addAll t).idxOf n)) false := by
      refine Term.render_map (fun n hn => ?_) false
      rw [Ty.untagged, Term.vars_map] at hn
      rw [idxOf_addList (mem_addAll.mpr (Or.inr hn))]
    rw [renderAll, render_eq]
    simp only [ih]
    rw [← hhead]
    rfl

/-- The texts do not depend on tags. -/
theorem renderAll_congr (h : us.map Ty.untagged = ts.map Ty.untagged) (names : Naming) :
    names.renderAll us = names.renderAll ts := by
  induction ts generalizing us names with
  | nil => rw [List.map_eq_nil_iff.mp h]
  | cons t ts ih =>
    cases us with
    | nil => cases h
    | cons u us =>
      obtain ⟨hhead, hrest⟩ := List.cons.inj h
      rw [renderAll, renderAll, render_congr hhead, ih hrest]

/-- The texts do not depend on the numbers of variables. -/
theorem renderAll_rename {f : Nat → Nat} (hf : Function.Injective f) (names : Naming)
    (ts : List Ty) : renderAll (names.map f) (ts.map (Ty.rename f)) = names.renderAll ts := by
  induction ts generalizing names with
  | nil => rfl
  | cons t ts ih =>
    have hnames : ∀ m ∈ names, True := fun _ _ => trivial
    obtain ⟨hrender, -⟩ := render_rename (K := fun _ => True) hf.injOn (t := t) (fun _ _ => trivial)
      hnames
    rw [List.map_cons, renderAll, renderAll, hrender, ih]

/-- Every place of a variable in the naming of some types is one in the naming of other types with
the same places. -/
theorem idxOf_lt_of_index_eq (h : ts.map (addList [] ts).index = us.map (addList [] us).index)
    (hn : n ∈ addList [] ts) : (addList [] ts).idxOf n < (addList [] us).length := by
  obtain ⟨t, ht, hnt⟩ := (mem_addList.mp hn).resolve_left List.not_mem_nil
  have hmem := List.mem_map_of_mem (f := (addList [] ts).index) ht
  rw [h] at hmem
  obtain ⟨u, hu, heq⟩ := List.mem_map.mp hmem
  -- the place of the variable is that of a variable of the other type
  have hvars : (addList [] ts).idxOf n ∈ ((addList [] us).index u).vars := by
    rw [heq, index, Term.vars_map, Ty.untagged, Term.vars_map]
    exact List.mem_map_of_mem hnt
  rw [index, Term.vars_map, Ty.untagged, Term.vars_map] at hvars
  obtain ⟨m, hm, hplace⟩ := List.mem_map.mp hvars
  rw [← hplace]
  exact List.idxOf_lt_length_of_mem (mem_addList.mpr (Or.inr ⟨u, hu, hm⟩))

/-- Types with variables at the same places differ in the numbers of their variables alone. -/
theorem exists_rename_of_index_eq
    (h : ts.map (addList [] ts).index = us.map (addList [] us).index) :
    ∃ f : Nat → Nat, Function.Injective f ∧
      us.map Ty.untagged = ts.map fun t => (t.rename f).untagged := by
  -- a variable goes to the variable that stands at its place
  let g (n : Nat) : Nat := (addList [] us).getD ((addList [] ts).idxOf n) 0
  have hinj : Set.InjOn g {n | n ∈ addList [] ts} := by
    intro n hn m hm heq
    have hlt := idxOf_lt_of_index_eq h hn
    have hlt' := idxOf_lt_of_index_eq h hm
    have hnodup := (addList_spec [] us).2 List.nodup_nil
    simp only [g, List.getD_eq_getElem _ _ hlt, List.getD_eq_getElem _ _ hlt'] at heq
    exact (List.idxOf_inj hn).mp ((hnodup.getElem_inj_iff).mp heq)
  obtain ⟨f, hf, hfg⟩ := exists_injective_of_injOn hinj
  refine ⟨f, hf, ?_⟩
  have hback : ∀ u ∈ us, ((addList [] us).index u).map (fun i => (addList [] us).getD i 0) =
      u.untagged := by
    intro u hu
    rw [index, Term.map_map]
    refine Term.map_eq_self fun m hm => ?_
    rw [Ty.untagged, Term.vars_map] at hm
    have hmem : m ∈ addList [] us := mem_addList.mpr (Or.inr ⟨u, hu, hm⟩)
    have hlt := List.idxOf_lt_length_of_mem hmem
    rw [Function.comp_apply, List.getD_eq_getElem _ _ hlt, List.getElem_idxOf]
  calc us.map Ty.untagged
      = (us.map (addList [] us).index).map (Term.map fun i => (addList [] us).getD i 0) := by
        rw [List.map_map]
        exact List.map_congr_left fun u hu => (hback u hu).symm
    _ = (ts.map (addList [] ts).index).map (Term.map fun i => (addList [] us).getD i 0) := by rw [h]
    _ = ts.map fun t => (t.rename f).untagged := by
        rw [List.map_map]
        refine List.map_congr_left fun t ht => ?_
        rw [Function.comp_apply, index, Term.map_map, Ty.untagged, Ty.untagged, Ty.rename,
          Term.map_map, Term.map_map]
        exact Term.map_congr fun v hv =>
          (hfg v.id (mem_addList.mpr (Or.inr ⟨t, ht, Ty.mem_ids hv⟩))).symm

end Naming

/-- **Texts of types are faithful**: under namings of their own, two lists of types have the same
texts exactly if one renaming of variables takes the first list to the second, up to tags. -/
theorem renderAll_eq_iff {ts us : List Ty} (hts : ∀ t ∈ ts, t.Formed) (hus : ∀ u ∈ us, u.Formed) :
    Naming.renderAll [] ts = Naming.renderAll [] us ↔
      ∃ f : Nat → Nat, Function.Injective f ∧
        us.map Ty.untagged = ts.map fun t => (t.rename f).untagged := by
  constructor
  · intro htexts
    rw [Naming.renderAll_eq_map, Naming.renderAll_eq_map] at htexts
    refine Naming.exists_rename_of_index_eq (Term.texts_injective ?_ ?_ htexts)
    · exact List.forall_mem_map.mpr fun t ht => ((hts t ht).map _).map _
    · exact List.forall_mem_map.mpr fun u hu => ((hus u hu).map _).map _
  · rintro ⟨f, hf, heq⟩
    have hrenamed : us.map Ty.untagged = (ts.map (Ty.rename f)).map Ty.untagged := by
      rw [heq, List.map_map]
      rfl
    rw [Naming.renderAll_congr hrenamed]
    exact (Naming.renderAll_rename hf [] ts).symm

/-- A function to a tuple of one, and a failed application that shares a variable with it. -/
theorem renderAll_eq_iff_shared :
    let types (a b c : Nat) : List Ty :=
      [.arrow (.product [.var ⟨a, none⟩]) (.product [.var ⟨b, some useTag⟩]),
        .failure .int (.arrow (.product [.var ⟨a, some useTag⟩]) (.var ⟨c, none⟩))]
    (∀ t ∈ types 3 5 8, t.Formed) ∧ (∀ t ∈ types 7 3 5, t.Formed) ∧
      Naming.renderAll [] (types 3 5 8) = Naming.renderAll [] (types 7 3 5) ∧
      ∃ f : Nat → Nat, Function.Injective f ∧
        (types 7 3 5).map Ty.untagged = (types 3 5 8).map fun t => (t.rename f).untagged := by
  intro types
  have hone : ∀ v : TVar, ∀ t ∈ [Term.var v], t.Formed := fun v =>
    List.forall_mem_singleton.mpr (.var v)
  have hformed : ∀ a b c, ∀ t ∈ types a b c, t.Formed := fun a b c =>
    List.forall_mem_cons.mpr ⟨.arrow (hone _) (.product (hone _)),
      List.forall_mem_singleton.mpr (.failure .int (hone _) (.var _))⟩
  have htexts : Naming.renderAll [] (types 3 5 8) = Naming.renderAll [] (types 7 3 5) := by
    decide +kernel
  exact ⟨hformed 3 5 8, hformed 7 3 5, htexts,
    (renderAll_eq_iff (hformed 3 5 8) (hformed 7 3 5)).mp htexts⟩

end LetTyping
