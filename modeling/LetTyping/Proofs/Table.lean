import LetTyping.Context
import Mathlib.Data.List.Forall2

/-!
# Tables and uses of names

Whatever is done to the values of a table one by one passes through the operations on tables, since
these go by the names alone.  The uses of free names are tables of lists; contexts are the uses at
types, and the same operations serve for uses at anything else.

## Main definitions

* `Table.mapValues` — changes every value of a table.
* `Table.Rel` — two tables have the same names, with related values.
* `Uses` — names with what they are used at.
* `Uses.addAll`, `Uses.union`, `Uses.passOut` — the operations on contexts, for any uses.
* `Uses.All` — a property of everything that names are used at.

## Main results

* `Table.Rel.insertAll`, `Table.Rel.get?` — related tables stay related, and look-ups agree.
* `Uses.map_addAll`, `Uses.map_union`, `Uses.map_passOut` — changing what names are used at passes
  through the operations.
-/

namespace LetTyping

namespace Table

variable {β γ δ : Type}

/-! ### Entries -/

theorem mem_of_get? {t : Table β} {name : String} {b : β} (h : get? t name = some b) :
    (name, b) ∈ t := by
  induction t with
  | nil => simp at h
  | cons entry t ih =>
    obtain ⟨n, b'⟩ := entry
    rw [get?_cons] at h
    split at h
    · next hn =>
      rw [Option.some.injEq] at h
      rw [hn, h]
      exact List.mem_cons_self
    · exact List.mem_cons_of_mem _ (ih h)

theorem mem_alter {t : Table β} {name : String} {f : Option β → β} {entry : String × β}
    (h : entry ∈ alter t name f) : entry ∈ t ∨ entry = (name, f (get? t name)) := by
  induction t with
  | nil => exact Or.inr (List.mem_singleton.mp h)
  | cons e t ih =>
    obtain ⟨n, b⟩ := e
    rw [alter] at h
    rw [get?_cons]
    split at h
    · next hn =>
      rw [if_pos hn, ← hn]
      rcases List.mem_cons.mp h with rfl | h
      · exact Or.inr rfl
      · exact Or.inl (List.mem_cons_of_mem _ h)
    · next hn =>
      rw [if_neg hn]
      rcases List.mem_cons.mp h with rfl | h
      · exact Or.inl List.mem_cons_self
      · exact (ih h).imp_left (List.mem_cons_of_mem _)

@[simp] theorem insertAll_nil (t : Table β) : insertAll t [] = t := rfl

@[simp] theorem insertAll_cons (t : Table β) (entry : String × β) (u : Table β) :
    insertAll t (entry :: u) = insertAll (insert t entry.1 entry.2) u := rfl

theorem mem_insertAll {t u : Table β} {entry : String × β} (h : entry ∈ insertAll t u) :
    entry ∈ t ∨ entry ∈ u := by
  induction u generalizing t with
  | nil => exact Or.inl h
  | cons e u ih =>
    rw [insertAll_cons] at h
    rcases ih h with h | h
    · rcases mem_alter h with h | rfl
      · exact Or.inl h
      · exact Or.inr List.mem_cons_self
    · exact Or.inr (List.mem_cons_of_mem _ h)

/-! ### Changing values -/

/-- Changes every value. -/
def mapValues (f : β → γ) (t : Table β) : Table γ := t.map fun entry => (entry.1, f entry.2)

@[simp] theorem mapValues_nil (f : β → γ) : mapValues f [] = [] := rfl

@[simp] theorem mapValues_cons (f : β → γ) (entry : String × β) (t : Table β) :
    mapValues f (entry :: t) = (entry.1, f entry.2) :: mapValues f t := rfl

theorem keys_mapValues (f : β → γ) (t : Table β) : keys (mapValues f t) = keys t := by
  rw [keys, mapValues, List.map_map]
  rfl

@[simp] theorem get?_mapValues (f : β → γ) (t : Table β) (name : String) :
    get? (mapValues f t) name = (get? t name).map f := by
  induction t with
  | nil => rfl
  | cons entry t ih =>
    rw [mapValues_cons, get?_cons, ih, get?_cons]
    split <;> rfl

theorem mapValues_alter {f : β → γ} {g : Option β → β} {k : Option γ → γ}
    (h : ∀ b, f (g b) = k (b.map f)) (t : Table β) (name : String) :
    mapValues f (alter t name g) = alter (mapValues f t) name k := by
  induction t with
  | nil => rw [alter, mapValues_cons, h]; rfl
  | cons entry t ih =>
    rw [alter, mapValues_cons, alter]
    split
    · rw [mapValues_cons, h]; rfl
    · rw [mapValues_cons, ih]

theorem mapValues_insertAll (f : β → γ) (t u : Table β) :
    mapValues f (insertAll t u) = insertAll (mapValues f t) (mapValues f u) := by
  induction u generalizing t with
  | nil => rfl
  | cons entry u ih =>
    rw [insertAll_cons, ih, mapValues_cons, insertAll_cons, insert, insert,
      mapValues_alter (k := fun _ => f entry.2) fun _ => rfl]

@[simp] theorem mapValues_erase (f : β → γ) (t : Table β) (name : String) :
    mapValues f (erase t name) = erase (mapValues f t) name := by
  rw [erase, erase, mapValues, mapValues, List.filter_map]
  rfl

/-! ### Related tables -/

/-- Two tables have the same names in the same order, with related values. -/
def Rel (R : β → γ → Prop) (t : Table β) (u : Table γ) : Prop :=
  List.Forall₂ (fun e e' => e.1 = e'.1 ∧ R e.2 e'.2) t u

namespace Rel

variable {R : β → γ → Prop} {t : Table β} {u : Table γ}

theorem iff_zip : Rel R t u ↔ keys t = keys u ∧ ∀ e ∈ t.zip u, R e.1.2 e.2.2 := by
  constructor
  · intro h
    induction h with
    | nil => exact ⟨rfl, by simp⟩
    | cons he _ ih =>
      refine ⟨congrArg₂ List.cons he.1 ih.1, fun e hmem => ?_⟩
      rcases List.mem_cons.mp hmem with rfl | hmem
      · exact he.2
      · exact ih.2 e hmem
  · rintro ⟨hkeys, h⟩
    induction t generalizing u with
    | nil =>
      cases u with
      | nil => exact .nil
      | cons _ _ => simp [keys] at hkeys
    | cons e t ih =>
      cases u with
      | nil => simp [keys] at hkeys
      | cons e' u =>
        rw [keys, keys, List.map_cons, List.map_cons, List.cons.injEq] at hkeys
        exact .cons ⟨hkeys.1, h (e, e') List.mem_cons_self⟩
          (ih hkeys.2 fun x hx => h x (List.mem_cons_of_mem _ hx))

/-- A name has values in both tables, which are related, or in neither. -/
theorem get? (h : Rel R t u) (name : String) :
    (Table.get? t name = none ∧ Table.get? u name = none) ∨
      ∃ b c, Table.get? t name = some b ∧ Table.get? u name = some c ∧ R b c := by
  induction h with
  | nil => exact Or.inl ⟨rfl, rfl⟩
  | @cons e e' _ _ he _ ih =>
    rw [get?_cons, get?_cons, he.1]
    split
    · exact Or.inr ⟨e.2, e'.2, rfl, rfl, he.2⟩
    · exact ih

theorem insert (h : Rel R t u) (name : String) {b : β} {c : γ} (hbc : R b c) :
    Rel R (Table.insert t name b) (Table.insert u name c) := by
  induction h with
  | nil => exact .cons ⟨rfl, hbc⟩ .nil
  | @cons e e' _ _ he hrest ih =>
    rw [Table.insert, Table.insert, alter, alter, he.1]
    split
    · exact .cons ⟨rfl, hbc⟩ hrest
    · exact .cons ⟨rfl, he.2⟩ ih

theorem insertAll (h : Rel R t u) {t' : Table β} {u' : Table γ} (h' : Rel R t' u') :
    Rel R (Table.insertAll t t') (Table.insertAll u u') := by
  induction h' generalizing t u with
  | nil => exact h
  | @cons e e' _ _ he _ ih =>
    rw [insertAll_cons, insertAll_cons, ← he.1]
    exact ih (h.insert e.1 he.2)

theorem imp {R' : β → γ → Prop} (h : Rel R t u) (himp : ∀ e ∈ t, ∀ c, R e.2 c → R' e.2 c) :
    Rel R' t u := by
  induction h with
  | nil => exact .nil
  | @cons e e' _ _ he _ ih =>
    exact .cons ⟨he.1, himp e List.mem_cons_self _ he.2⟩
      (ih fun x hx => himp x (List.mem_cons_of_mem _ hx))

theorem mapValues_iff {f : δ → β} {t : Table δ} :
    Rel R (Table.mapValues f t) u ↔ Rel (fun d c => R (f d) c) t u := by
  rw [Rel, Rel, Table.mapValues, List.forall₂_map_left_iff]

end Rel

theorem keys_insertAll_congr {t t' : Table β} {u u' : Table γ} (h : keys t = keys u)
    (h' : keys t' = keys u') : keys (insertAll t t') = keys (insertAll u u') := by
  have hrel : Rel (fun _ _ => True) t u := Rel.iff_zip.mpr ⟨h, fun _ _ => trivial⟩
  have hrel' : Rel (fun _ _ => True) t' u' := Rel.iff_zip.mpr ⟨h', fun _ _ => trivial⟩
  exact (Rel.iff_zip.mp (hrel.insertAll hrel')).1

end Table

/-! ### Uses of names -/

/-- Names with what they are used at. -/
abbrev Uses (τ : Type) := Table (List τ)

namespace Uses

variable {τ σ υ : Type} {P : τ → Prop}

/-- Records uses of a name after those that are there. -/
def addAll (c : Uses τ) (name : String) (ts : List τ) : Uses τ :=
  Table.alter c name fun old => old.getD [] ++ ts

/-- What a name is used at. -/
def of (c : Uses τ) (name : String) : List τ := (Table.get? c name).getD []

/-- The uses in `c`, then the uses in `d`. -/
def union (c d : Uses τ) : Uses τ := d.foldl (fun c entry => addAll c entry.1 entry.2) c

/-- Records uses of a name one by one. -/
def passOut (c : Uses τ) (name : String) (ts : List τ) : Uses τ :=
  ts.foldl (fun c t => addAll c name [t]) c

/-- Changes everything that names are used at. -/
def map (g : τ → σ) (c : Uses τ) : Uses σ := Table.mapValues (List.map g) c

@[simp] theorem map_nil (g : τ → σ) : map g [] = [] := rfl

@[simp] theorem map_cons (g : τ → σ) (name : String) (ts : List τ) (c : Uses τ) :
    map g ((name, ts) :: c) = (name, ts.map g) :: map g c := rfl

theorem keys_map (g : τ → σ) (c : Uses τ) : Table.keys (map g c) = Table.keys c :=
  Table.keys_mapValues (List.map g) c

theorem of_map (g : τ → σ) (c : Uses τ) (name : String) :
    (map g c).of name = (c.of name).map g := by
  rw [of, of, map, Table.get?_mapValues]
  cases Table.get? c name <;> rfl

theorem map_addAll (g : τ → σ) (c : Uses τ) (name : String) (ts : List τ) :
    map g (addAll c name ts) = addAll (map g c) name (ts.map g) := by
  refine Table.mapValues_alter (fun old => ?_) c name
  cases old <;> simp

theorem map_union (g : τ → σ) (c d : Uses τ) : map g (union c d) = union (map g c) (map g d) := by
  induction d generalizing c with
  | nil => rfl
  | cons entry d ih =>
    change map g (union (addAll c entry.1 entry.2) d) = _
    rw [ih, map_addAll]
    rfl

theorem map_passOut (g : τ → σ) (c : Uses τ) (name : String) (ts : List τ) :
    map g (passOut c name ts) = passOut (map g c) name (ts.map g) := by
  induction ts generalizing c with
  | nil => rfl
  | cons t ts ih =>
    change map g (passOut (addAll c name [t]) name ts) = _
    rw [ih, map_addAll]
    rfl

theorem of_cons (name : String) (ts : List τ) (c : Uses τ) (x : String) :
    of ((name, ts) :: c) x = if name = x then ts else of c x := by
  rw [of, Table.get?_cons, of]
  split <;> rfl

theorem of_eq_nil {c : Uses τ} {name : String} (h : name ∉ Table.keys c) : of c name = [] := by
  cases hget : Table.get? c name with
  | none => rw [of, hget, Option.getD_none]
  | some ts => exact absurd (List.mem_map_of_mem (Table.mem_of_get? hget)) h

theorem of_addAll (c : Uses τ) (name : String) (ts : List τ) (x : String) :
    (addAll c name ts).of x = if x = name then c.of x ++ ts else c.of x := by
  rw [of, addAll, Table.get?_alter, of]
  split
  · next h => rw [h, Option.getD_some]
  · rfl

theorem of_passOut (c : Uses τ) (name : String) (ts : List τ) (x : String) :
    (passOut c name ts).of x = if x = name then c.of x ++ ts else c.of x := by
  induction ts generalizing c with
  | nil => simp [passOut]
  | cons t ts ih =>
    change (passOut (addAll c name [t]) name ts).of x = _
    rw [ih, of_addAll]
    split <;> simp

/-- No name gets a second entry. -/
theorem nodup_keys_addAll {c : Uses τ} (h : (Table.keys c).Nodup) (name : String) (ts : List τ) :
    (Table.keys (addAll c name ts)).Nodup := by
  rw [addAll, Table.keys_alter]
  split
  · exact h
  · next hmem =>
    refine List.nodup_append.mpr ⟨h, List.pairwise_singleton _ _, fun x hx y hy heq => hmem ?_⟩
    rwa [← List.mem_singleton.mp hy, ← heq]

theorem nodup_keys_passOut {c : Uses τ} (h : (Table.keys c).Nodup) (name : String) (ts : List τ) :
    (Table.keys (passOut c name ts)).Nodup := by
  induction ts generalizing c with
  | nil => exact h
  | cons t ts ih => exact ih (nodup_keys_addAll h name [t])

theorem map_erase (g : τ → σ) (c : Uses τ) (name : String) :
    map g (Table.erase c name) = Table.erase (map g c) name :=
  Table.mapValues_erase _ c name

theorem map_map (g : τ → σ) (h : σ → υ) (c : Uses τ) : map h (map g c) = map (h ∘ g) c := by
  simp only [map, Table.mapValues, List.map_map, Function.comp_def]

/-! ### Properties of all uses -/

/-- Everything that names are used at has a property. -/
def All (P : τ → Prop) (c : Uses τ) : Prop := ∀ entry ∈ c, ∀ t ∈ entry.2, P t

@[simp] theorem all_nil : All P ([] : Uses τ) := fun _ h => nomatch h

@[simp] theorem all_cons {name : String} {ts : List τ} {c : Uses τ} :
    All P ((name, ts) :: c) ↔ (∀ t ∈ ts, P t) ∧ All P c := by
  simp only [All, List.forall_mem_cons]

theorem All.of {c : Uses τ} (h : All P c) (name : String) : ∀ t ∈ c.of name, P t := by
  intro t ht
  rw [Uses.of] at ht
  cases hget : Table.get? c name with
  | none => simp [hget] at ht
  | some ts =>
    rw [hget, Option.getD_some] at ht
    exact h _ (Table.mem_of_get? hget) t ht

theorem All.addAll {c : Uses τ} (h : All P c) {ts : List τ} (hts : ∀ t ∈ ts, P t) (name : String) :
    All P (c.addAll name ts) := by
  intro entry hentry t ht
  rcases Table.mem_alter hentry with hentry | rfl
  · exact h entry hentry t ht
  · rcases List.mem_append.mp ht with ht | ht
    · exact h.of name t ht
    · exact hts t ht

theorem All.union {c d : Uses τ} (h : All P c) (h' : All P d) : All P (c.union d) := by
  induction d generalizing c with
  | nil => exact h
  | cons entry d ih =>
    rw [all_cons] at h'
    exact ih (h.addAll h'.1 entry.1) h'.2

theorem All.passOut {c : Uses τ} (h : All P c) {ts : List τ} (hts : ∀ t ∈ ts, P t)
    (name : String) : All P (c.passOut name ts) := by
  induction ts generalizing c with
  | nil => exact h
  | cons t ts ih =>
    rw [List.forall_mem_cons] at hts
    exact ih (h.addAll (by simpa using hts.1) name) hts.2

theorem All.erase {c : Uses τ} (h : All P c) (name : String) : All P (Table.erase c name) :=
  fun entry hentry => h entry (List.mem_filter.mp hentry).1

theorem map_congr {f g : τ → σ} {c : Uses τ} (h : All (fun t => f t = g t) c) :
    map f c = map g c := by
  refine List.map_congr_left fun entry hentry => ?_
  rw [List.map_congr_left (h entry hentry)]

theorem all_map {g : σ → τ} {c : Uses σ} : All P (map g c) ↔ All (fun t => P (g t)) c := by
  induction c with
  | nil => exact iff_of_true all_nil all_nil
  | cons entry c ih => rw [map_cons, all_cons, all_cons, ih, List.forall_mem_map]

end Uses

end LetTyping
