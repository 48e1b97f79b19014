import LetTyping.Proofs.Region
import LetTyping.Signature

/-!
# What signatures touch

The signature of a declaration comes from a fresh instance of the declared typing, whose names are
resolved against the declarations around it.  All the variables that are bound on the way belong to
that instance or to instances of the declarations, so they were allocated for the signature.  Every
binding from before stays as it is, also where a scope cannot be resolved.

## Main definitions

* `ScopesOwned` — the declarations of some scopes are over allocated variables.

## Main results

* `resolveInto_evolves`, `resolve_evolves` — what resolving a context touches, if it fails or not.
* `signature_evolves` — one signature binds only variables that it allocates.
* `signatures_evolves` — **so do the signatures of a whole tree.**
-/

namespace LetTyping

variable {K : Nat → Prop} {st st' : State}

/-! ### Resolving contexts -/

/-- Resolving a context binds variables of the context and of the instances made on the way.  What
passes out is over every region that holds these and what was out before, also after a problem. -/
theorem resolveInto_evolves (h : Region K st) {defined : Defined}
    (hdef : ∀ e ∈ defined, e.2.All (Owns Anywhere st)) {context : Context}
    (hc : Uses.All (Owns K st) context) (out : Context) (span : Span) :
    Evolves K st (resolveInto out defined span context st).2 ∧
      ∀ M, (∀ n, K n → M n) → Uses.All (Owns M st) out →
        Uses.All (Owns M (resolveInto out defined span context st).2)
          (resolveInto out defined span context st).1.2 :=
  (resolutionRun defined span defined.length [] context out st).evolves h hdef hc

theorem resolve_evolves (h : Region K st) {defined : Defined}
    (hdef : ∀ e ∈ defined, e.2.All (Owns Anywhere st)) {context : Context}
    (hc : Uses.All (Owns K st) context) (span : Span) :
    Evolves K st (resolve [] defined span context st).2 ∧
      ∀ rest, (resolve [] defined span context st).1 = .ok rest →
        Uses.All (Owns K (resolve [] defined span context st).2) rest := by
  obtain ⟨hev, hout⟩ := resolveInto_evolves h hdef hc [] span
  rw [resolve, Infer.bind_apply, Infer.lift_apply]
  rcases hres : resolveInto [] defined span context st with ⟨⟨problem | _, out⟩, st₁⟩ <;>
    rw [hres] at hev hout
  · refine ⟨hev, fun rest hrest => ?_⟩
    cases hrest
  · refine ⟨hev, fun rest hrest => ?_⟩
    obtain rfl := Except.ok.inj hrest
    exact hout K (fun _ hn => hn) Uses.all_nil

/-! ### Scopes -/

/-- The declarations of some scopes are over allocated variables. -/
def ScopesOwned (st : State) (scopes : List Defined) : Prop :=
  ∀ scope ∈ scopes, ∀ e ∈ scope, e.2.All (Owns Anywhere st)

theorem ScopesOwned.mono {scopes : List Defined} (h : ScopesOwned st scopes)
    (hle : st.count ≤ st'.count) : ScopesOwned st' scopes :=
  fun scope hscope e he => (h scope hscope e he).imp fun _ ht => ht.mono hle

theorem resolveThrough_evolves (span : Span) (scopes : List Defined) :
    ∀ {context : Context} {st : State}, Region K st → ScopesOwned st scopes →
      Uses.All (Owns K st) context → Evolves K st (resolveThrough span scopes context st).2 := by
  induction scopes with
  | nil =>
    intro context st h _ _
    exact h.evolves_refl
  | cons scope scopes ih =>
    intro context st h hscopes hc
    have hrest : ScopesOwned st scopes := fun s hs => hscopes s (List.mem_cons_of_mem _ hs)
    obtain ⟨h₁, hout⟩ := resolve_evolves h (hscopes scope List.mem_cons_self) hc span
    rw [resolveThrough, Infer.bind_apply]
    rcases hres : resolve [] scope span context st with ⟨problem | rest, st₁⟩ <;>
      rw [hres] at h₁ hout
    · exact h₁
    · exact h₁.trans (ih h₁.region (hrest.mono h₁.count_le) (hout rest rfl))

/-! ### Signatures -/

theorem signature_eq (scopes : List Defined) (span : Span) (name : String) (value : Typing)
    (st : State) :
    (signature scopes span name value st).2 =
      match resolveThrough span scopes (instantiate value st).1.context
        (instantiate value st).2 with
      | (.ok (), st₁) => st₁
      | (.error problem, st₁) =>
        st₁.logged (.partlyUnresolved name (Fault.type problem).message) := by
  rw [signature]
  simp only [State.bind_apply, ExceptT.run]
  rcases resolveThrough _ _ _ _ with ⟨problem | _, st₁⟩ <;> rfl

/-- **A signature binds only variables that it allocates.** -/
theorem signature_evolves (h : Region Anywhere st) {scopes : List Defined}
    (hscopes : ScopesOwned st scopes) {value : Typing} (hvalue : value.All (Owns Anywhere st))
    (span : Span) (name : String) :
    Evolves (st.count ≤ ·) st (signature scopes span name value st).2 := by
  obtain ⟨h₁, hcopy, -, -⟩ := instantiate_evolves h.above hvalue
  have hcontext := (Typing.all_iff.mp hcopy).2.1
  have h₂ := resolveThrough_evolves span scopes h₁.region (hscopes.mono h₁.count_le) hcontext
  rw [signature_eq]
  rcases hres : resolveThrough span scopes (instantiate value st).1.context (instantiate value st).2
    with ⟨problem | _, st₁⟩ <;> rw [hres] at h₂
  · exact h₁.trans (h₂.trans (State.logged_evolves h₂.region _))
  · exact h₁.trans h₂

/-- The signatures of a tree bind only variables that they allocate, whatever scopes are around. -/
def Reporting (t : Tree Mark) : Prop :=
  ∀ {scopes : List Defined} {st : State}, Region Anywhere st → ScopesOwned st scopes →
    t.Owned Anywhere st → Evolves (st.count ≤ ·) st (signatures scopes t st).2

theorem signaturesList_evolves (ts : List (Tree Mark)) (ih : ∀ t ∈ ts, Reporting t) :
    ∀ {scopes : List Defined} {st : State}, Region Anywhere st → ScopesOwned st scopes →
      (∀ t ∈ ts, t.Owned Anywhere st) →
      Evolves (st.count ≤ ·) st (signaturesList scopes ts st).2 := by
  induction ts with
  | nil =>
    intro scopes st h _ _
    exact h.above.evolves_refl
  | cons t ts ihs =>
    intro scopes st h hscopes hts
    rw [List.forall_mem_cons] at ih hts
    have h₁ := ih.1 h hscopes hts.1
    have h₂ := ihs ih.2 (h₁.region_of h) (hscopes.mono h₁.count_le)
      fun t ht => (hts.2 t ht).mono h₁.count_le
    exact h₁.step h₂

/-- **The signatures of a tree bind only variables that they allocate.** -/
theorem signatures_evolves (t : Tree Mark) : Reporting t := by
  induction t using Tree.induction with
  | int m value | var m name =>
    intro scopes st h _ _
    exact h.above.evolves_refl
  | tuple m elems ih | array m elems ih =>
    intro scopes st h hscopes hown
    exact signaturesList_evolves elems ih h hscopes hown.children
  | fn m params value ih | assign m name value ih =>
    intro scopes st h hscopes hown
    exact ih h hscopes (hown.children value (by simp [Tree.children]))
  | ret m value ih =>
    intro scopes st h hscopes hown
    exact ih h hscopes (hown.children value (by simp [Tree.children]))
  | apply m fn arg ihf iha =>
    intro scopes st h hscopes hown
    have h₁ := ihf h hscopes (hown.children fn (by simp [Tree.children]))
    have h₂ := iha (h₁.region_of h) (hscopes.mono h₁.count_le)
      ((hown.children arg (by simp [Tree.children])).mono h₁.count_le)
    exact h₁.step h₂
  | decl m name value ih =>
    intro scopes st h hscopes hown
    have hvalue := hown.children value (by simp [Tree.children])
    rw [signatures]
    cases hT : value.label.typing with
    | none => exact ih h hscopes hvalue
    | some T =>
      -- the declaration itself comes before those in its value
      have h₁ := signature_evolves h hscopes ((Tree.marked_iff.mp hvalue).1 T hT) m.span name
      have h₂ := ih (h₁.region_of h) (hscopes.mono h₁.count_le) (hvalue.mono h₁.count_le)
      exact h₁.step h₂
  | block m stmts ih =>
    intro scopes st h hscopes hown
    rw [signatures]
    cases hT : m.typing with
    | none => exact h.above.evolves_refl
    | some T =>
      have hdefined := (Typing.all_iff.mp ((Tree.marked_iff.mp hown).1 T hT)).2.2
      exact signaturesList_evolves stmts ih h (List.forall_mem_cons.mpr ⟨hdefined, hscopes⟩)
        hown.children

end LetTyping
