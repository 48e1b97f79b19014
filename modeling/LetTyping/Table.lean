/-!
# Tables in insertion order

A table holds a value for each of finitely many names, in the order in which the names came in.

## Main definitions

* `Table` — names with their values.
* `Table.get?`, `Table.insert`, `Table.erase`, `Table.keys` — the usual operations.
* `Table.alter` — changes the value of a name in its place.

## Main results

* `Table.get?_alter`, `Table.get?_insert`, `Table.get?_erase` — the values after an operation.
* `Table.keys_alter`, `Table.keys_erase` — the names after an operation, in order.
-/

namespace LetTyping

/-- Names with their values, in the order in which the names came in. -/
abbrev Table (β : Type) := List (String × β)

namespace Table

variable {β : Type}

/-- The value of a name. -/
def get? (t : Table β) (name : String) : Option β :=
  match t with
  | [] => none
  | (n, b) :: rest => if n = name then some b else get? rest name

/-- Whether the table has a value for a name. -/
def has (t : Table β) (name : String) : Bool := (get? t name).isSome

/-- Gives a name the value that `f` makes of the one it has.  A new name comes last. -/
def alter (t : Table β) (name : String) (f : Option β → β) : Table β :=
  match t with
  | [] => [(name, f none)]
  | (n, b) :: rest => if n = name then (n, f (some b)) :: rest else (n, b) :: alter rest name f

/-- Gives a name a value.  A name that is there already keeps its place. -/
def insert (t : Table β) (name : String) (b : β) : Table β := alter t name fun _ => b

/-- The table without a name. -/
def erase (t : Table β) (name : String) : Table β := t.filter fun entry => entry.1 ≠ name

/-- The names in order. -/
def keys (t : Table β) : List String := t.map Prod.fst

/-- Inserts the entries of `u` into `t`, one after another. -/
def insertAll (t u : Table β) : Table β := u.foldl (fun t (name, b) => insert t name b) t

/-- Whether two tables have the same names with the same values, in any order. -/
def sameUpToOrder (same : β → β → Bool) (t u : Table β) : Bool :=
  t.length = u.length && t.all fun (name, b) => (get? u name).any (same b)

/-! ### Values -/

@[simp] theorem get?_nil (name : String) : get? ([] : Table β) name = none := rfl

@[simp] theorem get?_cons (n : String) (b : β) (t : Table β) (name : String) :
    get? ((n, b) :: t) name = if n = name then some b else get? t name := rfl

@[simp] theorem get?_alter (t : Table β) (name : String) (f : Option β → β) (n : String) :
    get? (alter t name f) n = if n = name then some (f (get? t name)) else get? t n := by
  induction t with
  | nil => simp [alter, eq_comm]
  | cons entry t ih =>
    obtain ⟨m, b⟩ := entry
    by_cases hm : m = name
    · subst hm
      by_cases hn : m = n
      · simp [alter, hn]
      · simp [alter, hn, Ne.symm hn]
    · by_cases hn : m = n
      · subst hn
        simp [alter, hm]
      · simp [alter, hm, hn, ih]

@[simp] theorem get?_insert (t : Table β) (name : String) (b : β) (n : String) :
    get? (insert t name b) n = if n = name then some b else get? t n :=
  get?_alter t name _ n

@[simp] theorem get?_erase (t : Table β) (name n : String) :
    get? (erase t name) n = if n = name then none else get? t n := by
  induction t with
  | nil => simp [erase]
  | cons entry t ih =>
    obtain ⟨m, b⟩ := entry
    simp only [erase, ne_eq, decide_not] at ih ⊢
    by_cases hm : m = name
    · subst hm
      by_cases hn : m = n
      · subst hn
        simpa using ih
      · simpa [hn, Ne.symm hn] using ih
    · by_cases hn : m = n
      · subst hn
        simp [hm]
      · simpa [hm, hn] using ih

/-! ### Names -/

/-- A table has a value for exactly its names. -/
theorem has_iff_mem_keys (t : Table β) (name : String) : has t name ↔ name ∈ keys t := by
  induction t with
  | nil => simp [has, keys]
  | cons entry t ih =>
    obtain ⟨n, b⟩ := entry
    by_cases h : n = name
    · simp [has, keys, h]
    · simpa [has, keys, h, Ne.symm h] using ih

/-- A name that is there keeps its place, and a new name comes last. -/
theorem keys_alter (t : Table β) (name : String) (f : Option β → β) :
    keys (alter t name f) = if name ∈ keys t then keys t else keys t ++ [name] := by
  induction t with
  | nil => simp [alter, keys]
  | cons entry t ih =>
    obtain ⟨n, b⟩ := entry
    rw [keys, keys] at ih
    by_cases h : n = name
    · simp [alter, keys, h]
    · by_cases hm : name ∈ t.map Prod.fst
      · simp_all [alter, keys]
      · simp_all [alter, keys, Ne.symm h]

@[simp] theorem keys_erase (t : Table β) (name : String) :
    keys (erase t name) = (keys t).filter (· ≠ name) := by
  simp [keys, erase, List.filter_map, Function.comp_def]

end Table

end LetTyping
