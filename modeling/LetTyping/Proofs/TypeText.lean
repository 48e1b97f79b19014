import LetTyping.Proofs.Composition
import LetTyping.Proofs.Renaming
import LetTyping.Proofs.Scanning

/-!
# Texts of types and of their instances

A type has the text of an instance of it only if the two differ in their variables alone.  Reading
the two texts from the left, they part where a variable of the type stands against anything else:
names of variables are small letters with numbers, and nothing else begins with a small letter but a
function from a variable, which goes on with an arrow.

## Main definitions

* `IsName`, `Ends` — names of variables, and what stands behind a type.
* `Term.Known` — a type without unknown constructors.
* `Term.Told` — the text of an instance gives away where it differs from the type.

## Main results

* `Term.told` — the text of an instance, read beside the text of the type.
* `Ty.variant_of_text` — **an instance with the same text differs in its variables alone.**
-/

namespace LetTyping

/-! ### Names of variables -/

/-- A small letter, with digits behind it. -/
def IsName (w : List Char) : Prop :=
  ∃ c ds, w = c :: ds ∧ c.isLower = true ∧ ∀ d ∈ ds, d.isDigit = true

theorem isName_variableName (i : Nat) : IsName (variableName i).toList := by
  have hletter : ∀ r < 26, (Char.ofNat ('a'.toNat + r)).isLower = true := by decide
  have hi := hletter (i % 26) (Nat.mod_lt _ (by decide))
  rw [variableName]
  split
  · exact ⟨_, [], by simp, hi, by simp⟩
  · refine ⟨_, Nat.toDigits 10 (i / 26), by simp, hi, fun d hd => ?_⟩
    exact Nat.isDigit_of_mem_toDigits (by omega) (by omega) hd

theorem variableName_injective : Function.Injective variableName := by
  have hletter : ∀ r < 26, ∀ r' < 26,
      Char.ofNat ('a'.toNat + r) = Char.ofNat ('a'.toNat + r') → r = r' := by decide
  -- a name gives the letter and, with no number for the first round of letters, the round
  have hdigits : ∀ i, ∃ ds, (variableName i).toList = Char.ofNat ('a'.toNat + i % 26) :: ds ∧
      Decimal.value ds = i / 26 := by
    intro i
    rw [variableName]
    split
    · next hi => exact ⟨[], by simp, (Nat.div_eq_of_lt hi).symm⟩
    · exact ⟨(Decimal.ofNat (i / 26)).toList, by simp, Decimal.value_toList_ofNat _⟩
  intro i j h
  obtain ⟨ds, hi, hds⟩ := hdigits i
  obtain ⟨ds', hj, hds'⟩ := hdigits j
  rw [h, hj] at hi
  obtain ⟨hchar, rfl⟩ := List.cons.inj hi
  have hmod := hletter _ (Nat.mod_lt j (by decide)) _ (Nat.mod_lt i (by decide)) hchar
  omega

/-- Two names that stand before something else than a digit are told apart. -/
theorem IsName.append_inj {w w' k k' : List Char} (hw : IsName w) (hw' : IsName w')
    (hk : ∀ c ∈ k.head?, c.isDigit = false) (hk' : ∀ c ∈ k'.head?, c.isDigit = false)
    (h : w ++ k = w' ++ k') : w = w' ∧ k = k' := by
  obtain ⟨c, ds, rfl, -, hds⟩ := hw
  obtain ⟨c', ds', rfl, -, hds'⟩ := hw'
  rw [List.cons_append, List.cons_append, List.cons.injEq] at h
  obtain ⟨rfl, h⟩ := h
  obtain ⟨htake, hdrop⟩ := takeWhile_append hds hk
  obtain ⟨htake', hdrop'⟩ := takeWhile_append hds' hk'
  exact ⟨by rw [← htake, ← htake', h], by rw [← hdrop, ← hdrop', h]⟩

/-! ### Types without unknown constructors -/

namespace Term

variable {V W : Type}

/-- All constructors of a type are those of the language. -/
def Known (t : Term V) : Prop := ∀ name, t.mentions name = true → Ty.IsConstructor True name

theorem known_con {name : String} {args : List (Term V)} :
    Known (.con name args) ↔ Ty.IsConstructor True name ∧ ∀ a ∈ args, a.Known := by
  simp only [Known, mentions_con, Bool.or_eq_true, decide_eq_true_eq, List.any_eq_true]
  constructor
  · exact fun h => ⟨h name (Or.inl rfl), fun a ha n hn => h n (Or.inr ⟨a, ha, hn⟩)⟩
  · rintro ⟨hname, hargs⟩ n (rfl | ⟨a, ha, hn⟩)
    · exact hname
    · exact hargs a ha n hn

end Term

theorem Ty.MadeOf.known {V : TVar → Prop} {F : Prop} {t : Ty} (h : t.MadeOf V F) :
    t.untagged.Known := by
  induction h with
  | var _ => exact fun name hn => by cases hn
  | con hname _ ih =>
    rw [untagged, Term.map_con, Term.known_con, List.forall_mem_map]
    exact ⟨hname.imp_right fun hF => ⟨hF.1, trivial⟩, ih⟩

/-! ### Texts, read from the left -/

/-- What stands behind a type: an arrow behind a parameter, and otherwise nothing or what closes the
type off. -/
def Ends : Bool → List Char → Prop
  | true, k => k.head? = some ' '
  | false, k => ∀ c ∈ k.head?, c ∈ [',', ')', '>']

theorem Ends.not_digit {asParam : Bool} {k : List Char} (h : Ends asParam k) :
    ∀ c ∈ k.head?, c.isDigit = false := by
  cases asParam with
  | true =>
    intro c hc
    rw [Ends] at h
    rw [h, Option.mem_some_iff] at hc
    exact hc ▸ rfl
  | false =>
    have hclose : ∀ c ∈ [',', ')', '>'], c.isDigit = false := by simp
    exact fun c hc => hclose c (h c hc)

namespace Term

variable {V W : Type} {name : V → String} {name' : W → String} {θ : V → Term W} {k k' : List Char}

/-- The text of a constructor is one around the text of its arguments, which is closed off. -/
theorem conText_split (n : String) (asParam : Bool) (count : Nat) :
    ∃ before after : List Char,
      (∀ args, (count = 0 → args = "") →
        (conText n asParam count args).toList = before ++ args.toList ++ after) ∧
      (count ≠ 0 → ∃ c ∈ [',', ')', '>'], after.head? = some c) := by
  rw [funext fun args => conText.eq_1 n asParam count args]
  split
  · split
    · exact ⟨['('], [',', ')'], by simp, by simp⟩
    · exact ⟨['('], [')'], by simp, by simp⟩
  · split
    · next hcount => exact ⟨n.toList, [], by simp [hcount], fun h => absurd hcount h⟩
    · exact ⟨n.toList ++ ['<'], ['>'], by simp, by simp⟩

/-- The text of a constructor does not begin like the name of a variable, unless it is that of a
function type. -/
theorem render_con_head {n : String} {args : List (Term W)} (hn : Ty.IsConstructor True n)
    {asParam : Bool} (h : asParam = true ∨ ¬(n = Ty.arrowName ∧ args.length = 2)) :
    ∃ c, ((con n args).render name' asParam).toList.head? = some c ∧ c.isLower = false := by
  -- no name of a constructor begins with a small letter
  have hword : ∃ c, n.toList.head? = some c ∧ c.isLower = false := by
    rcases hn with hn | ⟨rfl, -⟩
    · simp only [List.mem_cons, List.not_mem_nil, or_false] at hn
      rcases hn with rfl | rfl | rfl | rfl
      all_goals exact ⟨_, rfl, rfl⟩
    · exact ⟨_, rfl, rfl⟩
  have hopen : ∀ rest : String, ("(" ++ rest).toList.head? = some '(' := by simp
  obtain ⟨c, hhead, hc⟩ := hword
  rw [render]
  split
  · next harrow =>
    rw [if_pos (h.resolve_right (not_not.mpr harrow)), String.append_assoc]
    exact ⟨'(', hopen _, rfl⟩
  · rw [conText]
    split
    · split
      · exact ⟨'(', by rw [String.append_assoc, hopen], rfl⟩
      · exact ⟨'(', by rw [String.append_assoc, hopen], rfl⟩
    · split
      · exact ⟨c, hhead, hc⟩
      · exact ⟨c, by simp [hhead], hc⟩

/-- A name is not the beginning of a constructor's text that stands in its place. -/
theorem name_append_ne {n : String} {args : List (Term W)} {w : List Char} {asParam : Bool}
    (hw : IsName w) (hknown : Known (con n args)) (hname' : ∀ v, IsName (name' v).toList)
    (hk : Ends asParam k) : w ++ k ≠ ((con n args).render name' asParam).toList ++ k' := by
  rw [known_con] at hknown
  obtain ⟨c, ds, rfl, hlower, hds⟩ := id hw
  -- texts that begin with something else than a small letter
  have hhead : ∀ {u : List Char}, (∃ c, u.head? = some c ∧ c.isLower = false) →
      ∀ {r}, c :: ds ++ k ≠ u ++ r := by
    rintro u ⟨c', hu, hc'⟩ r heq
    have hsame : some c = some c' := by simpa [hu] using congrArg List.head? heq
    rw [← Option.some.inj hsame, hlower] at hc'
    cases hc'
  by_cases harrow : asParam = false ∧ n = Ty.arrowName ∧ args.length = 2
  · obtain ⟨rfl, rfl, hlength⟩ := harrow
    obtain ⟨a, b, rfl⟩ := List.length_eq_two.mp hlength
    have htext : ((con Ty.arrowName [a, b]).render name' false).toList =
        (a.render name' true).toList ++ (" -> ".toList ++ (b.render name' false).toList) := by
      rw [render, if_pos ⟨rfl, rfl⟩]
      simp [renderArrow]
    rw [htext, List.append_assoc]
    cases a with
    | con n args =>
      have ha := known_con.mp (hknown.2 (con n args) (by simp))
      exact hhead (render_con_head ha.1 (Or.inl rfl))
    | var v =>
      -- a function from a variable goes on with an arrow, which does not close off a type
      intro heq
      obtain ⟨-, rfl⟩ := hw.append_inj (hname' v) hk.not_digit (by simp) heq
      exact absurd (hk ' ' (by simp)) (by simp)
  · refine hhead (render_con_head hknown.1 ?_)
    cases asParam with
    | true => exact Or.inl rfl
    | false => exact Or.inr fun h => harrow ⟨rfl, h⟩

/-- Where the texts of a type and of its instance agree, whatever stands behind them, the instance
has variables in the place of variables, with the same names. -/
def Told (name : V → String) (name' : W → String) (θ : V → Term W) (t : Term V) : Prop :=
  ∀ (asParam : Bool) (k k' : List Char), Ends asParam k → Ends asParam k' →
    (t.render name asParam).toList ++ k = ((t.bind θ).render name' asParam).toList ++ k' →
    (∀ v ∈ t.vars, ∃ w, θ v = .var w ∧ name v = name' w) ∧ k = k'

theorem renderList_told {ts : List (Term V)} (hts : ∀ t ∈ ts, Told name name' θ t)
    (hk : ts ≠ [] → Ends false k) (hk' : ts ≠ [] → Ends false k')
    (heq : (renderList name ts).toList ++ k = (renderList name' (ts.map (bind θ))).toList ++ k') :
    (∀ t ∈ ts, ∀ v ∈ t.vars, ∃ w, θ v = .var w ∧ name v = name' w) ∧ k = k' := by
  induction ts with
  | nil => exact ⟨by simp, by simpa [renderList] using heq⟩
  | cons t ts ih =>
    rw [List.forall_mem_cons] at hts
    have hcons : t :: ts ≠ [] := List.cons_ne_nil t ts
    cases ts with
    | nil =>
      obtain ⟨hvars, rfl⟩ := hts.1 false k k' (hk hcons) (hk' hcons) heq
      exact ⟨by simpa using hvars, rfl⟩
    | cons u ts =>
      rw [List.map_cons, List.map_cons, renderList_cons, renderList_cons] at heq
      simp only [String.toList_append, List.append_assoc] at heq
      -- a comma ends the text of an element
      have hcomma : ∀ r : List Char, Ends false (", ".toList ++ r) := by simp [Ends]
      obtain ⟨hvars, hrest⟩ := hts.1 false _ _ (hcomma _) (hcomma _) heq
      obtain ⟨hothers, rfl⟩ := ih hts.2 (fun _ => hk hcons) (fun _ => hk' hcons)
        (List.append_cancel_left hrest)
      exact ⟨List.forall_mem_cons.mpr ⟨hvars, hothers⟩, rfl⟩

theorem renderArrow_told {a b : Term V} (ha : Told name name' θ a) (hb : Told name name' θ b)
    (hk : Ends false k) (hk' : Ends false k')
    (heq : (renderArrow name [a, b]).toList ++ k =
      (renderArrow name' [a.bind θ, b.bind θ]).toList ++ k') :
    (∀ t ∈ [a, b], ∀ v ∈ t.vars, ∃ w, θ v = .var w ∧ name v = name' w) ∧ k = k' := by
  simp only [renderArrow, String.toList_append, List.append_assoc] at heq
  have harrow : ∀ r : List Char, Ends true (" -> ".toList ++ r) := by simp [Ends]
  obtain ⟨hvars, hrest⟩ := ha true _ _ (harrow _) (harrow _) heq
  obtain ⟨hvars', rfl⟩ := hb false _ _ hk hk' (List.append_cancel_left hrest)
  exact ⟨by simpa using ⟨hvars, hvars'⟩, rfl⟩

/-- **The text of an instance, read beside the text of the type.** -/
theorem told (hname : ∀ v, IsName (name v).toList) (hname' : ∀ w, IsName (name' w).toList)
    {t : Term V} (hknown : (t.bind θ).Known) : Told name name' θ t := by
  induction t using Term.induction with
  | var v =>
    intro asParam k k' hk hk' heq
    rw [bind_var] at hknown heq
    -- the text of a constructor cannot be read as the name of a variable
    cases hθ : θ v with
    | con n args =>
      rw [hθ] at hknown heq
      exact absurd heq (name_append_ne (hname v) hknown hname' hk)
    | var w =>
      rw [hθ] at heq
      obtain ⟨hw, rfl⟩ := (hname v).append_inj (hname' w) hk.not_digit hk'.not_digit heq
      exact ⟨by simpa [hθ] using String.toList_inj.mp hw, rfl⟩
  | con n args ih =>
    rw [bind_con, known_con, List.forall_mem_map] at hknown
    have hargs : ∀ a ∈ args, Told name name' θ a := fun a ha => ih a ha (hknown.2 a ha)
    intro asParam k k' hk hk' heq
    suffices h : (∀ a ∈ args, ∀ v ∈ a.vars, ∃ w, θ v = .var w ∧ name v = name' w) ∧ k = k' by
      refine ⟨fun v hv => ?_, h.2⟩
      rw [vars_con, List.mem_flatMap] at hv
      obtain ⟨a, ha, hva⟩ := hv
      exact h.1 a ha v hva
    rw [bind_con, render, render, List.length_map] at heq
    by_cases harrow : n = Ty.arrowName ∧ args.length = 2
    · obtain ⟨a, b, rfl⟩ := List.length_eq_two.mp harrow.2
      rw [if_pos harrow, if_pos harrow] at heq
      have ha := hargs a (by simp)
      have hb := hargs b (by simp)
      cases asParam with
      | false => exact renderArrow_told ha hb hk hk' heq
      | true =>
        simp only [if_true, String.toList_append, List.append_assoc] at heq
        have hclose : ∀ r : List Char, Ends false (")".toList ++ r) := by simp [Ends]
        obtain ⟨hvars, hrest⟩ :=
          renderArrow_told ha hb (hclose k) (hclose k') (List.append_cancel_left heq)
        exact ⟨hvars, List.append_cancel_left hrest⟩
    · rw [if_neg harrow, if_neg harrow] at heq
      obtain ⟨before, after, htext, hafter⟩ := conText_split n asParam args.length
      -- what comes behind the arguments ends the last one
      have hclose : args ≠ [] → ∀ r, Ends false (after ++ r) := by
        intro hne r
        obtain ⟨c, hc, hhead⟩ := hafter (by simpa using hne)
        simpa [Ends, hhead] using hc
      rw [htext _ fun h => by rw [List.length_eq_zero_iff.mp h]; rfl,
        htext _ fun h => by rw [List.length_eq_zero_iff.mp h]; rfl] at heq
      simp only [List.append_assoc] at heq
      obtain ⟨hvars, hrest⟩ := renderList_told hargs (fun hne => hclose hne k)
        (fun hne => hclose hne k') (List.append_cancel_left heq)
      exact ⟨hvars, List.append_cancel_left hrest⟩

end Term

/-! ### Texts of types -/

theorem Naming.mem_addAll {names : Naming} {t : Ty} {n : Nat} :
    n ∈ names.addAll t ↔ n ∈ names ∨ n ∈ t.ids := by
  have key : ∀ (vs : List TVar) (names : Naming),
      n ∈ vs.foldl add names ↔ n ∈ names ∨ n ∈ vs.map TVar.id := by
    intro vs
    induction vs with
    | nil => simp
    | cons v vs ih =>
      intro names
      rw [List.foldl_cons, ih, List.map_cons, List.mem_cons, ← or_assoc]
      refine or_congr_left ?_
      rw [add]
      split
      · next hv => exact ⟨Or.inl, fun h => h.elim id fun heq => heq ▸ hv⟩
      · simp
  exact key t.vars names

/-- **An instance with the same text differs in its variables alone.** -/
theorem Ty.variant_of_text {t u : Ty} {θ : Nat → Term Nat} (h : t.eval θ = u.untagged)
    (hknown : u.untagged.Known) (htext : t.text = u.text) : t.Variant u := by
  have hbind : t.untagged.bind θ = u.untagged := by
    rw [← h, untagged, Term.bind_map]
    rfl
  rw [text_eq_render, text_eq_render, ← hbind] at htext
  have hend : Ends false [] := by simp [Ends]
  obtain ⟨hvars, -⟩ := Term.told (fun n => isName_variableName _) (fun n => isName_variableName _)
    (hbind ▸ hknown) false [] [] hend hend (congrArg (·.toList ++ []) htext)
  have hids : t.untagged.vars = t.ids := Term.vars_map _ t
  rw [hids] at hvars
  choose! f hf using hvars
  refine ⟨f, fun n hn m hm heq => ?_, ?_⟩
  -- variables with the same name have the same place in the naming, so they are the same
  · have hindex := variableName_injective ((hf n hn).2.trans (heq ▸ (hf m hm).2.symm))
    exact (List.idxOf_inj (Naming.mem_addAll.mpr (Or.inr hn))).mp hindex
  · rw [← hbind]
    exact Term.bind_congr fun n hn => (hf n (hids ▸ hn)).1

end LetTyping
