import LetTyping.Proofs.Acyclic
import LetTyping.Proofs.Table
import LetTyping.Typing

/-!
# Typings as data

A typing is a type, the types of its context, and the typings of declared names in turn.  A property
of its types or a change to them comes down to these parts.

## Main definitions

* `Typing.All` — a property of all the types of a typing.
* `Typing.ids` — the numbers of the variables of a typing.

## Main results

* `Typing.induction` — induction on typings, with a hypothesis for every declared name.
* `Typing.all_iff` — a property of all the types, part by part.
* `Typing.mapTypes_congr`, `Typing.mapTypes_mapTypes` — changes to all the types.
-/

namespace LetTyping

/-! ### Contexts are uses at types -/

namespace Context

theorem uses_eq (c : Context) (name : String) : c.uses name = Uses.of c name := rfl

theorem union_eq (c d : Context) : c.union d = Uses.union c d := rfl

theorem mapTypes_eq (f : Ty → Ty) (c : Context) : c.mapTypes f = Uses.map f c := rfl

theorem forall_mem_types {P : Ty → Prop} {c : Context} :
    (∀ t ∈ c.types, P t) ↔ Uses.All P c := by
  simp only [types, List.mem_flatMap, forall_exists_index, and_imp, Uses.All]
  exact ⟨fun h e he t ht => h t e he ht, fun h t e he ht => h e he t ht⟩

theorem types_mapTypes (f : Ty → Ty) (c : Context) : (c.mapTypes f).types = c.types.map f := by
  rw [types, types, mapTypes, List.flatMap_map, List.map_flatMap]

end Context

namespace Typing

/-- Induction on typings, with a hypothesis for every declared name. -/
theorem induction {motive : Typing → Prop}
    (mk : ∀ ty context defined, (∀ e ∈ defined, motive e.2) → motive ⟨ty, context, defined⟩)
    (t : Typing) : motive t :=
  @Typing.rec motive (fun d => ∀ e ∈ d, motive e.2) (fun e => motive e.2) mk
    (fun _ h => nomatch h)
    (fun _ _ he hd e h => (List.mem_cons.1 h).elim (fun heq => heq ▸ he) (hd e))
    (fun _ _ h => h) t

variable {P Q : Ty → Prop} {T : Typing}

/-! ### Properties of all types -/

/-- All the types of a typing have a property. -/
def All (P : Ty → Prop) (T : Typing) : Prop := ∀ t ∈ T.types, P t

theorem all_iff :
    T.All P ↔ P T.ty ∧ Uses.All P T.context ∧ ∀ e ∈ T.defined, e.2.All P := by
  obtain ⟨ty, context, defined⟩ := T
  simp only [All, types, definedTypes_eq_flatMap, List.forall_mem_cons, List.forall_mem_append,
    Context.forall_mem_types, List.mem_flatMap, forall_exists_index, and_imp]
  exact and_congr_right fun _ => and_congr_right fun _ =>
    ⟨fun h e he t ht => h t e he ht, fun h t e he ht => h e he t ht⟩

theorem all_closed {ty : Ty} : (closed ty).All P ↔ P ty := by
  rw [all_iff]
  exact ⟨And.left, fun h => ⟨h, Uses.all_nil, fun _ he => nomatch he⟩⟩

theorem All.imp (h : T.All P) (himp : ∀ t, P t → Q t) : T.All Q := fun t ht => himp t (h t ht)

/-! ### Changes to all types -/

@[simp] theorem mapTypes_ty (f : Ty → Ty) (T : Typing) : (T.mapTypes f).ty = f T.ty := by
  cases T
  rfl

@[simp] theorem mapTypes_context (f : Ty → Ty) (T : Typing) :
    (T.mapTypes f).context = Uses.map f T.context := by
  cases T
  rfl

@[simp] theorem mapTypes_defined (f : Ty → Ty) (T : Typing) :
    (T.mapTypes f).defined = Table.mapValues (mapTypes f) T.defined := by
  cases T
  exact mapDefined_eq_map f _

@[simp] theorem mapTypes_closed (f : Ty → Ty) (ty : Ty) :
    (closed ty).mapTypes f = closed (f ty) := rfl

theorem types_mapTypes (f : Ty → Ty) (T : Typing) : (T.mapTypes f).types = T.types.map f := by
  induction T using Typing.induction with
  | mk ty context defined ih =>
    simp only [mapTypes, types, mapDefined_eq_map, definedTypes_eq_flatMap, List.map_cons,
      List.map_append, Context.types_mapTypes, List.flatMap_map, List.map_flatMap]
    rw [List.flatMap_congr ih]

theorem all_mapTypes {f : Ty → Ty} : (T.mapTypes f).All P ↔ T.All fun t => P (f t) := by
  rw [All, types_mapTypes, List.forall_mem_map]
  rfl

/-- Changing what names are used at passes through the union of contexts. -/
theorem map_foldl_union {σ : Type} (g : Ty → σ) (Ts : List Typing) (c : Context) :
    Uses.map g (Ts.foldl (fun c T => Context.union c T.context) c) =
      (Ts.map fun T => Uses.map g T.context).foldl Uses.union (Uses.map g c) := by
  induction Ts generalizing c with
  | nil => rfl
  | cons T Ts ih =>
    rw [List.foldl_cons, ih, List.map_cons, List.foldl_cons, Context.union_eq, Uses.map_union]

/-! ### Types and declarations -/

/-- The type and the context of a typing have one property, and what it declares has another. -/
def Split (P Q : Ty → Prop) (T : Typing) : Prop :=
  P T.ty ∧ Uses.All P T.context ∧ ∀ e ∈ T.defined, e.2.All Q

theorem Split.imp {P' Q' : Ty → Prop} (h : T.Split P Q) (hP : ∀ t, P t → P' t)
    (hQ : ∀ t, Q t → Q' t) : T.Split P' Q' :=
  ⟨hP _ h.1, fun e he t ht => hP t (h.2.1 e he t ht), fun e he => (h.2.2 e he).imp hQ⟩

theorem Split.and {R : Ty → Prop} (h : T.Split P Q) (hR : T.All R) :
    T.Split (fun t => P t ∧ R t) (fun t => Q t ∧ R t) := by
  obtain ⟨hty, hcontext, hdefined⟩ := all_iff.mp hR
  exact ⟨⟨h.1, hty⟩, fun e he t ht => ⟨h.2.1 e he t ht, hcontext e he t ht⟩,
    fun e he t ht => ⟨h.2.2 e he t ht, hdefined e he t ht⟩⟩

theorem split_mapTypes {f : Ty → Ty} :
    (T.mapTypes f).Split P Q ↔ T.Split (fun t => P (f t)) (fun t => Q (f t)) := by
  rw [Split, mapTypes_ty, mapTypes_context, Uses.all_map, mapTypes_defined, Table.mapValues,
    List.forall_mem_map]
  exact and_congr_right fun _ => and_congr_right fun _ => forall₂_congr fun e _ => all_mapTypes

/-! ### Equal changes -/

/-- Two changes that agree on the types of a typing give the same typing. -/
theorem mapTypes_congr {f g : Ty → Ty} (h : T.All fun t => f t = g t) :
    T.mapTypes f = T.mapTypes g := by
  induction T using Typing.induction with
  | mk ty context defined ih =>
    obtain ⟨hty, hcontext, hdefined⟩ := all_iff.mp h
    rw [mapTypes, mapTypes, hty, Context.mapTypes_eq, Context.mapTypes_eq, Uses.map_congr hcontext,
      mapDefined_eq_map, mapDefined_eq_map,
      List.map_congr_left fun e he => by rw [ih e he (hdefined e he)]]

theorem mapTypes_mapTypes (f g : Ty → Ty) (T : Typing) :
    (T.mapTypes f).mapTypes g = T.mapTypes (g ∘ f) := by
  induction T using Typing.induction with
  | mk ty context defined ih =>
    simp only [mapTypes, Context.mapTypes_eq, Uses.map_map, mapDefined_eq_map, List.map_map,
      Function.comp_apply]
    rw [List.map_congr_left fun e he => by rw [Function.comp_apply, ih e he]]

theorem mapTypes_eq_self {f : Ty → Ty} (h : T.All fun t => f t = t) : T.mapTypes f = T := by
  induction T using Typing.induction with
  | mk ty context defined ih =>
    obtain ⟨hty, hcontext, hdefined⟩ := all_iff.mp h
    have hc : Uses.map f context = context := by
      refine (Uses.map_congr (g := id) hcontext).trans ?_
      simp [Uses.map, Table.mapValues]
    have hd : defined.map (fun e => (e.1, e.2.mapTypes f)) = defined := by
      refine (List.map_congr_left fun e he => ?_).trans (List.map_id _)
      rw [ih e he (hdefined e he)]
      rfl
    rw [mapTypes, hty, Context.mapTypes_eq, hc, mapDefined_eq_map, hd]

/-! ### Variables -/

/-- The numbers of the variables of a typing, one for every occurrence. -/
def ids (T : Typing) : List Nat := T.types.flatMap Ty.ids

theorem forall_mem_ids {K : Nat → Prop} :
    (∀ w ∈ T.ids, K w) ↔ T.All fun t => ∀ w ∈ t.ids, K w := by
  simp only [ids, List.mem_flatMap, forall_exists_index, and_imp, All]
  exact ⟨fun h t ht w hw => h w t ht hw, fun h w t ht hw => h t ht w hw⟩

@[simp] theorem ids_closed (ty : Ty) : (closed ty).ids = ty.ids := by
  simp [ids, closed, types, Context.types]

theorem all_mem_ids (T : Typing) : T.All fun t => ∀ w ∈ t.ids, w ∈ T.ids :=
  forall_mem_ids.mp fun _ hw => hw

end Typing

end LetTyping
