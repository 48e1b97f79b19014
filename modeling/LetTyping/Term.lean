/-!
# First-order terms

Terms are variables and named constructors applied to any number of terms.  Replacing variables by
terms (`Term.bind`) is the one operation that everything about substitutions comes down to.

## Main definitions

* `Term` — terms over a type of variables.
* `Term.bind`, `Term.map` — replacing and renaming variables.
* `Term.vars` — the occurrences of variables, from left to right.
* `Term.constructors` — the number of constructors.
* `Term.mentions` — whether a constructor of a given name occurs.
-/

namespace LetTyping

/-- Terms over the variables `V`. -/
inductive Term (V : Type) where
  /-- A variable. -/
  | var (v : V)
  /-- A constructor applied to terms. -/
  | con (name : String) (args : List (Term V))

namespace Term

variable {V W : Type}

/-- Induction on terms, with a hypothesis for every argument of a constructor. -/
theorem induction {motive : Term V → Prop} (var : ∀ v, motive (.var v))
    (con : ∀ name args, (∀ a ∈ args, motive a) → motive (.con name args)) (t : Term V) :
    motive t :=
  @Term.rec V motive (fun ts => ∀ a ∈ ts, motive a) var con (fun _ h => nomatch h)
    (fun _ _ ht hts a h => (List.mem_cons.1 h).elim (fun e => e ▸ ht) (hts a)) t

/-! ### Replacing variables -/

mutual

/-- Replaces every variable by a term. -/
def bind (f : V → Term W) : Term V → Term W
  | var v => f v
  | con name args => con name (bindList f args)

/-- Replaces every variable of some terms. -/
def bindList (f : V → Term W) : List (Term V) → List (Term W)
  | [] => []
  | t :: ts => bind f t :: bindList f ts

end

@[simp] theorem bindList_eq_map (f : V → Term W) (ts : List (Term V)) :
    bindList f ts = ts.map (bind f) := by
  induction ts with
  | nil => rfl
  | cons t ts ih => rw [bindList, ih, List.map_cons]

@[simp] theorem bind_var (f : V → Term W) (v : V) : (var v).bind f = f v := rfl

@[simp] theorem bind_con (f : V → Term W) (name : String) (args : List (Term V)) :
    (con name args).bind f = con name (args.map (bind f)) := by
  rw [bind, bindList_eq_map]

/-- Renames every variable. -/
def map (f : V → W) (t : Term V) : Term W := t.bind fun v => var (f v)

@[simp] theorem map_var (f : V → W) (v : V) : (var v).map f = var (f v) := rfl

@[simp] theorem map_con (f : V → W) (name : String) (args : List (Term V)) :
    (con name args).map f = con name (args.map (map f)) := by
  rw [map, bind_con]
  rfl

/-! ### Occurrences -/

mutual

/-- The occurrences of variables, from left to right. -/
def vars : Term V → List V
  | var v => [v]
  | con _ args => varsList args

/-- The occurrences of variables in some terms. -/
def varsList : List (Term V) → List V
  | [] => []
  | t :: ts => vars t ++ varsList ts

end

@[simp] theorem varsList_eq_flatMap (ts : List (Term V)) : varsList ts = ts.flatMap vars := by
  induction ts with
  | nil => rfl
  | cons t ts ih => rw [varsList, ih, List.flatMap_cons]

@[simp] theorem vars_var (v : V) : (var v).vars = [v] := rfl

@[simp] theorem vars_con (name : String) (args : List (Term V)) :
    (con name args).vars = args.flatMap vars := by
  rw [vars, varsList_eq_flatMap]

mutual

/-- The number of constructors of a term. -/
def constructors : Term V → Nat
  | var _ => 0
  | con _ args => constructorsList args + 1

/-- The number of constructors of some terms. -/
def constructorsList : List (Term V) → Nat
  | [] => 0
  | t :: ts => constructors t + constructorsList ts

end

@[simp] theorem constructors_var (v : V) : (var v).constructors = 0 := rfl

@[simp] theorem constructors_con (name : String) (args : List (Term V)) :
    (con name args).constructors = constructorsList args + 1 := rfl

@[simp] theorem constructorsList_nil : constructorsList ([] : List (Term V)) = 0 := rfl

@[simp] theorem constructorsList_cons (t : Term V) (ts : List (Term V)) :
    constructorsList (t :: ts) = t.constructors + constructorsList ts := rfl

mutual

/-- Whether a constructor of the given name occurs. -/
def mentions (name : String) : Term V → Bool
  | var _ => false
  | con n args => n = name || mentionsList name args

/-- Whether a constructor of the given name occurs in one of some terms. -/
def mentionsList (name : String) : List (Term V) → Bool
  | [] => false
  | t :: ts => mentions name t || mentionsList name ts

end

@[simp] theorem mentionsList_eq_any (name : String) (ts : List (Term V)) :
    mentionsList name ts = ts.any (mentions name) := by
  induction ts with
  | nil => rfl
  | cons t ts ih => rw [mentionsList, ih, List.any_cons]

@[simp] theorem mentions_var (name : String) (v : V) : (var v).mentions name = false := rfl

@[simp] theorem mentions_con (name n : String) (args : List (Term V)) :
    (con n args).mentions name = (decide (n = name) || args.any (mentions name)) := by
  rw [mentions, mentionsList_eq_any]

/-- Whether the term is a constructor of the given name. -/
def isCon (name : String) : Term V → Bool
  | var _ => false
  | con n _ => n = name

/-! ### Equality -/

mutual

/-- Decides whether two terms are equal. -/
def decEq [DecidableEq V] : (s t : Term V) → Decidable (s = t)
  | var v, var w => decidable_of_iff (v = w) (by simp)
  | var _, con _ _ => isFalse (by simp)
  | con _ _, var _ => isFalse (by simp)
  | con m ss, con n ts =>
    have : Decidable (ss = ts) := decEqList ss ts
    decidable_of_iff (m = n ∧ ss = ts) (by simp)

/-- Decides whether two lists of terms are equal. -/
def decEqList [DecidableEq V] : (ss ts : List (Term V)) → Decidable (ss = ts)
  | [], [] => isTrue rfl
  | [], _ :: _ => isFalse (by simp)
  | _ :: _, [] => isFalse (by simp)
  | s :: ss, t :: ts =>
    have : Decidable (s = t) := decEq s t
    have : Decidable (ss = ts) := decEqList ss ts
    decidable_of_iff (s = t ∧ ss = ts) (by simp)

end

instance [DecidableEq V] : DecidableEq (Term V) := decEq

end Term

end LetTyping
